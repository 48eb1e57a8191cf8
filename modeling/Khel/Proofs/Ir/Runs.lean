import Khel.Proofs.Ir.Semantics

/-!
# Runs beside a meaning

A run of intermediate code is compared with a function that says what the code is to do, and that has no result where
the code has none or does not come to an end. The comparison has one rule for every way in which such a function is put
together, so a proof about a piece of code follows the text of its meaning.

* `Ir.Lasts`: a run does not end within a number of steps.
* `Ir.Runs`: a run comes to where a meaning says, or lasts where it says nothing.
* `Ir.Steps.unique`, `Ir.Steps.not_lasts`: a run ends in one way only, and it does not last then.
-/

namespace Khel.Ir

section Runs

variable {w : World} {T : SymbolTable} {code : List Instr} {c c' c'' : List Instr × Store} {n : Nat}

/-! ## Ends of runs -/

/-- There is one way to go on. -/
theorem Step.unique (h : Step w T code c c') (h' : Step w T code c c'') : c' = c'' := by
  cases h with
  | next he =>
    cases h' with
    | next he' =>
      cases he.symm.trans he'
      rfl
    | goto he' _ => cases he.symm.trans he'
  | goto he ht =>
    cases h' with
    | next he' => cases he.symm.trans he'
    | goto he' ht' =>
      cases he.symm.trans he'
      cases ht.symm.trans ht'
      rfl

/-- The next instruction has no result. -/
def Stuck (w : World) (T : SymbolTable) (c : List Instr × Store) : Prop :=
  ∃ i rest, c.1 = i :: rest ∧ i.exec w T c.2 = none

/-- The run has come to the end of the function or to a return. -/
def Ended (w : World) (T : SymbolTable) (c : List Instr × Store) : Prop :=
  ∀ i rest, c.1 = i :: rest → ∃ v s, i.exec w T c.2 = some (.ret v, s)

theorem ended_nil (s : Store) : Ended w T ([], s) := by
  intro i rest h
  cases h

theorem ended_ret {i : Instr} {rest : List Instr} {s s' : Store} {v : Int} (h : i.exec w T s = some (.ret v, s')) :
    Ended w T (i :: rest, s) := by
  rintro _ _ ⟨⟩
  exact ⟨v, s', h⟩

theorem Ended.not_step (h : Ended w T c) : ¬ Step w T code c c' := by
  intro hstep
  cases hstep with
  | next he | goto he _ =>
    obtain ⟨v, s, hr⟩ := h _ _ rfl
    cases he.symm.trans hr

theorem Ended.not_stuck (h : Ended w T c) : ¬ Stuck w T c := by
  rintro ⟨i, rest, hc, he⟩
  obtain ⟨v, s, hr⟩ := h i rest hc
  cases he.symm.trans hr

theorem Stuck.not_step (h : Stuck w T c) : ¬ Step w T code c c' := by
  obtain ⟨i, rest, hc, he⟩ := h
  intro hstep
  cases hstep with
  | next he' | goto he' _ =>
    cases hc
    cases he.symm.trans he'

/-- A run ends in one way only. -/
theorem Steps.unique {a b : List Instr × Store} (ha : Steps w T code c a) (hb : Steps w T code c b)
    (hna : Ended w T a) (hnb : Ended w T b) : a = b := by
  have hunique : Relator.RightUnique (Step w T code) := fun _ _ _ h h' => h.unique h'
  rcases ha.total_of_right_unique hunique hb with h | h
  · rcases h.cases_head with rfl | ⟨d, hd, _⟩
    · rfl
    · exact (hna.not_step hd).elim
  · rcases h.cases_head with rfl | ⟨d, hd, _⟩
    · rfl
    · exact (hnb.not_step hd).elim

/-- A function returns one value only. -/
theorem Returns.unique {s s₁ s₂ : Store} {v₁ v₂ : Int} (h₁ : Returns w T code s v₁ s₁) (h₂ : Returns w T code s v₂ s₂) :
    v₁ = v₂ ∧ s₁ = s₂ := by
  obtain ⟨i₁, rest₁, hrun₁, he₁⟩ := h₁
  obtain ⟨i₂, rest₂, hrun₂, he₂⟩ := h₂
  cases hrun₁.unique hrun₂ (ended_ret he₁) (ended_ret he₂)
  cases he₁.symm.trans he₂
  exact ⟨rfl, rfl⟩

/-! ## Runs that last -/

/-- The run goes on for `n` steps, or it gets stuck before. -/
def Lasts (w : World) (T : SymbolTable) (code : List Instr) : Nat → List Instr × Store → Prop
  | 0, _ => True
  | n + 1, c => Stuck w T c ∨ ∃ c', Step w T code c c' ∧ Lasts w T code n c'

theorem Lasts.head (h : Step w T code c c') (hl : Lasts w T code n c') : Lasts w T code (n + 1) c := .inr ⟨c', h, hl⟩

theorem Lasts.pred : ∀ {n : Nat} {c : List Instr × Store}, Lasts w T code (n + 1) c → Lasts w T code n c
  | 0, _, _ => trivial
  | _ + 1, _, .inl h => .inl h
  | _ + 1, _, .inr ⟨c', h, hl⟩ => .inr ⟨c', h, hl.pred⟩

theorem Stuck.lasts (h : Stuck w T c) : ∀ n, Lasts w T code n c
  | 0 => trivial
  | _ + 1 => .inl h

/-- A run that ends does not last. -/
theorem Steps.not_lasts (h : Steps w T code c c') (hc' : Ended w T c') : ∃ n, ¬ Lasts w T code n c := by
  induction h using Relation.ReflTransGen.head_induction_on with
  | refl =>
    refine ⟨1, ?_⟩
    rintro (hs | ⟨d, hd, _⟩)
    · exact hc'.not_stuck hs
    · exact hc'.not_step hd
  | head hstep _ ih =>
    obtain ⟨n, ih⟩ := ih
    refine ⟨n + 1, ?_⟩
    rintro (hs | ⟨d, hd, hl⟩)
    · exact hs.not_step hstep
    · cases hd.unique hstep
      exact ih hl

/-! ## Meanings -/

variable {α β : Type} {o : Option α} {a : α} {Q R : α → List Instr × Store → Prop}
  {P : β → List Instr × Store → Prop} {f : α → Option β}

/-- Where the meaning has a result, the run comes to a point that fits it; where it has none, the run lasts for `n`
steps. -/
def Runs (w : World) (T : SymbolTable) (code : List Instr) (n : Nat) (c : List Instr × Store) (o : Option α)
    (Q : α → List Instr × Store → Prop) : Prop :=
  match o with
  | some a => ∃ c', Steps w T code c c' ∧ Q a c'
  | none => Lasts w T code n c

namespace Runs

/-- There is nothing left to run. -/
theorem pure (h : Q a c) : Runs w T code n c (Pure.pure a) Q := ⟨c, .refl, h⟩

/-- A step that the number of steps counts. -/
theorem head (h : Step w T code c c') (h' : Runs w T code n c' o Q) : Runs w T code (n + 1) c o Q := by
  cases o with
  | some a =>
    obtain ⟨d, hd, hq⟩ := h'
    exact ⟨d, hd.head h, hq⟩
  | none => exact Lasts.head h h'

theorem of_le {m : Nat} (h : Runs w T code n c o Q) (hle : m ≤ n) : Runs w T code m c o Q := by
  induction hle with
  | refl => exact h
  | step _ ih =>
    cases o with
    | some a => exact h
    | none => exact ih (Lasts.pred h)

theorem step (h : Step w T code c c') (h' : Runs w T code n c' o Q) : Runs w T code n c o Q :=
  (head h h').of_le (Nat.le_succ n)

theorem steps (h : Steps w T code c c') (h' : Runs w T code n c' o Q) : Runs w T code n c o Q := by
  induction h using Relation.ReflTransGen.head_induction_on with
  | refl => exact h'
  | head hstep _ ih => exact ih.step hstep

theorem bind (h : Runs w T code n c o Q) (hf : ∀ a c', Q a c' → Runs w T code n c' (f a) P) :
    Runs w T code n c (o >>= f) P := by
  cases o with
  | some a =>
    obtain ⟨d, hd, hq⟩ := h
    exact (hf a d hq).steps hd
  | none => exact h

/-- A part of the meaning that needs no run. -/
theorem known (ho : o = some a) (h : Runs w T code n c (f a) P) : Runs w T code n c (o >>= f) P := by
  subst ho
  exact h

theorem mono (h : Runs w T code n c o Q) (hq : ∀ a c', Q a c' → R a c') : Runs w T code n c o R := by
  cases o with
  | some a =>
    obtain ⟨d, hd, h⟩ := h
    exact ⟨d, hd, hq a d h⟩
  | none => exact h

end Runs

end Runs

/-! ## Single instructions -/

section Exec

variable {w : World} {T : SymbolTable} {σ : Store} {x : String} {t : Ty} {full rest : List Instr} {l r src : Value}
  {a b v : Int}

theorem step_copy (hx : (Value.var x).ty? T = some t) (ha : src.read w σ = a) :
    Step w T full (.copy src (.var x) :: rest, σ) (rest, Function.update σ x (t.wrap a)) :=
  .next (by simp [Instr.exec, hx, ha, Value.write])

theorem step_signExtend (hx : (Value.var x).ty? T = some t) (ha : src.read w σ = a) :
    Step w T full (.signExtend src (.var x) :: rest, σ) (rest, Function.update σ x (t.wrap a)) :=
  .next (by simp [Instr.exec, hx, ha, Value.write])

theorem step_truncate (hx : (Value.var x).ty? T = some t) (ha : src.read w σ = a) :
    Step w T full (.truncate src (.var x) :: rest, σ) (rest, Function.update σ x (t.wrap a)) :=
  .next (by simp [Instr.exec, hx, ha, Value.write])

theorem step_unary (hx : (Value.var x).ty? T = some t) (op : UnaryOp) (ha : src.read w σ = a) :
    Step w T full (.unary op src (.var x) :: rest, σ) (rest, Function.update σ x (op.apply t a)) :=
  .next (by simp [Instr.exec, hx, ha, Value.write])

theorem step_binary (hx : (Value.var x).ty? T = some t) {op : StrictOp} (ha : l.read w σ = a) (hb : r.read w σ = b)
    (hv : op.apply t a b = some v) :
    Step w T full (.binary op l r (.var x) :: rest, σ) (rest, Function.update σ x v) :=
  .next (by simp [Instr.exec, hx, ha, hb, hv, Value.write])

/-- An operation has a result, or it gets stuck. -/
theorem runs_binary (hx : (Value.var x).ty? T = some t) (op : StrictOp) (ha : l.read w σ = a) (hb : r.read w σ = b)
    (n : Nat) : Runs w T full n (.binary op l r (.var x) :: rest, σ) (op.apply t a b)
      fun v c => c = (rest, Function.update σ x v) := by
  cases hv : op.apply t a b with
  | some v => exact ⟨_, .single (step_binary hx ha hb hv), rfl⟩
  | none => exact Stuck.lasts ⟨_, _, rfl, by simp [Instr.exec, hx, ha, hb, hv]⟩ n

theorem step_call (hx : (Value.var x).ty? T = some t) {f : String} {vs : List Value} {args : List Int} {σ' : Store}
    (hargs : vs.map (Value.read w σ) = args) (hv : w.answer T f args σ = (v, σ')) :
    Step w T full (.call f vs (.var x) :: rest, σ) (rest, Function.update σ' x (t.wrap v)) :=
  .next (by simp [Instr.exec, hx, hargs, hv, Value.write])

theorem step_label (l : String) : Step w T full (.label l :: rest, σ) (rest, σ) := .next rfl

theorem step_jump {l : String} {target : List Instr} (hl : codeAfter l full = some target) :
    Step w T full (.jump l :: rest, σ) (target, σ) := .goto rfl hl

theorem step_jumpIfZero {l : String} {target : List Instr} (hl : codeAfter l full = some target)
    (h : src.read w σ = 0) : Step w T full (.jumpIfZero src l :: rest, σ) (target, σ) :=
  .goto (by simp [Instr.exec, h]) hl

theorem step_jumpIfZero_of_ne {l : String} (h : src.read w σ ≠ 0) :
    Step w T full (.jumpIfZero src l :: rest, σ) (rest, σ) := .next (by simp [Instr.exec, h])

theorem step_jumpIfNotZero {l : String} {target : List Instr} (hl : codeAfter l full = some target)
    (h : src.read w σ ≠ 0) : Step w T full (.jumpIfNotZero src l :: rest, σ) (target, σ) :=
  .goto (by simp [Instr.exec, h]) hl

theorem step_jumpIfNotZero_of_eq {l : String} (h : src.read w σ = 0) :
    Step w T full (.jumpIfNotZero src l :: rest, σ) (rest, σ) := .next (by simp [Instr.exec, h])

end Exec

end Khel.Ir
