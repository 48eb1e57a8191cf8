import Khel.Proofs.Ir.Computes

/-!
# Lowered statements do what they stand for

The code of a statement comes out behind its end, at a return, or at a jump to one of the labels of the loop around it,
just as the statement itself ends. A loop takes at least one step a round, so where the rounds do not suffice, the code
does not come to an end within as many steps.

* `Outcome.EndsAt`: where code comes out if a statement ends in this way.
* `Ir.Simulates`: a piece of code does what a statement does.
* `Stmt.lower_simulates`, `lowerItems_simulates`: lowering gives such pieces.
-/

namespace Khel

open Ir

/-- Where code comes out that does what a statement in the loop `current` does, if `rest` follows it. -/
def Outcome.EndsAt (w : World) (current : Option String) (rest : List Instr) (c : List Instr × Store) : Outcome → Prop
  | .done => c.1 = rest
  | .leave => ∃ id ∈ current, ∃ more, c.1 = .jump (breakLabel id) :: more
  | .next => ∃ id ∈ current, ∃ more, c.1 = .jump (continueLabel id) :: more
  | .ret v => ∃ value more, c.1 = .ret value :: more ∧ value.read w c.2 = v

/-- The same, with a store that agrees. -/
def Outcome.StopsAt (w : World) (current : Option String) (rest : List Instr) (p : Outcome × Store)
    (c : List Instr × Store) : Prop := p.2.Agrees c.2 ∧ p.1.EndsAt w current rest c

namespace Ir

section Pieces

variable {w : World} {T : SymbolTable} {temps temps' all : List Ty} {current : Option String} {fuel : Nat} {t : Ty}

/-! ## Pieces of code -/

/-- A piece of code gives the value that `value` says. -/
def Gives (w : World) (T : SymbolTable) (temps : List Ty) (code : List Instr) (v : Value)
    (value : Store → Option (Int × Store)) : Prop :=
  ∀ ⦃n : Nat⦄ ⦃all : List Ty⦄ ⦃full rest : List Instr⦄ ⦃s σ : Store⦄, temps <+: all → (labels full).Nodup →
    code ++ rest <:+ full → s.Agrees σ → Runs w (T.withTemps all) full n (code ++ rest, σ) (value s) fun p c =>
      ∃ σ', c = (rest, σ') ∧ p.2.Agrees σ' ∧ v.read w σ' = p.1

/-- A piece of code changes the store as `change` says. -/
def Changes (w : World) (T : SymbolTable) (temps : List Ty) (code : List Instr)
    (change : Store → Option Store) : Prop :=
  ∀ ⦃n : Nat⦄ ⦃all : List Ty⦄ ⦃full rest : List Instr⦄ ⦃s σ : Store⦄, temps <+: all → (labels full).Nodup →
    code ++ rest <:+ full → s.Agrees σ → Runs w (T.withTemps all) full n (code ++ rest, σ) (change s) fun s' c =>
      ∃ σ', c = (rest, σ') ∧ s'.Agrees σ'

/-- A piece of code in the loop `current` does what `run` says, which is given `fuel` for each loop. -/
def Simulates (w : World) (T : SymbolTable) (temps : List Ty) (current : Option String) (fuel : Nat) (code : List Instr)
    (run : Store → Option (Outcome × Store)) : Prop :=
  ∀ ⦃all : List Ty⦄ ⦃full rest : List Instr⦄ ⦃s σ : Store⦄, temps <+: all → (labels full).Nodup →
    code ++ rest <:+ full → s.Agrees σ →
    Runs w (T.withTemps all) full fuel (code ++ rest, σ) (run s) (Outcome.StopsAt w current rest)

/-- More temporaries do no harm. -/
theorem Gives.mono {code : List Instr} {v : Value} {value : Store → Option (Int × Store)}
    (h : Gives w T temps code v value) (hp : temps <+: temps') : Gives w T temps' code v value :=
  fun _ _ _ _ _ _ hall => h (hp.trans hall)

theorem Changes.mono {code : List Instr} {change : Store → Option Store} (h : Changes w T temps code change)
    (hp : temps <+: temps') : Changes w T temps' code change :=
  fun _ _ _ _ _ _ hall => h (hp.trans hall)

theorem Simulates.mono {code : List Instr} {run : Store → Option (Outcome × Store)}
    (h : Simulates w T temps current fuel code run) (hp : temps <+: temps') :
    Simulates w T temps' current fuel code run :=
  fun _ _ _ _ _ hall => h (hp.trans hall)

theorem Computes.gives {e : Expr} {code : List Instr} {v : Value}
    (h : Computes w T temps temps' code v (e.eval w T .atUse)) : Gives w T temps' code v (e.value w T .atUse) := by
  intro n all full rest s σ hall hfull hs hagree
  rw [Expr.value]
  refine .bind (h hall hfull hs hagree) ?_
  rintro ⟨r, s₁⟩ _ ⟨σ₁, rfl, hagree₁, _, hheld⟩
  exact .pure ⟨σ₁, rfl, hagree₁, hheld.now hagree₁⟩

/-- Behind a piece that may come out elsewhere, control goes on without doing anything. -/
theorem stopsAt_of_steps {full rest rest' : List Instr} {n : Nat} {c : List Instr × Store}
    {o : Option (Outcome × Store)} (h : Runs w T full n c o (Outcome.StopsAt w current rest))
    (hrest : ∀ σ, Steps w T full (rest, σ) (rest', σ)) : Runs w T full n c o (Outcome.StopsAt w current rest') := by
  cases o with
  | none => exact h
  | some p =>
    obtain ⟨outcome, s'⟩ := p
    obtain ⟨⟨point, σ'⟩, hrun, hagree, hends⟩ := h
    cases outcome with
    | done =>
      cases hends
      exact ⟨_, hrun.trans (hrest σ'), hagree, rfl⟩
    | leave | next | ret v => exact ⟨_, hrun, hagree, hends⟩

/-- One piece after the other. The second one is not run if the first comes out elsewhere. -/
theorem Simulates.append {code codes : List Instr} {run run' : Store → Option (Outcome × Store)}
    (h : Simulates w T temps current fuel code run) (h' : Simulates w T temps current fuel codes run') :
    Simulates w T temps current fuel (code ++ codes) fun s => do
      let (outcome, s) ← run s
      if outcome = .done then run' s else return (outcome, s) := by
  intro all full rest s σ hall hfull hs hagree
  rw [List.append_assoc] at hs ⊢
  refine .bind (h hall hfull hs hagree) ?_
  rintro ⟨outcome, s₁⟩ ⟨point, σ₁⟩ ⟨hagree₁, hends⟩
  cases outcome with
  | done =>
    cases hends
    exact h' hall hfull (suffix_right hs) hagree₁
  | leave | next | ret v => exact .pure ⟨hagree₁, hends⟩

theorem Changes.append {code codes : List Instr} {change : Store → Option Store}
    {run : Store → Option (Outcome × Store)} (h : Changes w T temps code change)
    (h' : Simulates w T temps current fuel codes run) :
    Simulates w T temps current fuel (code ++ codes) fun s => change s >>= run := by
  intro all full rest s σ hall hfull hs hagree
  rw [List.append_assoc] at hs ⊢
  refine .bind (h hall hfull hs hagree) ?_
  rintro s₁ _ ⟨σ₁, rfl, hagree₁⟩
  exact h' hall hfull (suffix_right hs) hagree₁

/-- A value is written to a variable. -/
theorem changes_copy (hT : T.TempFree) {x : String} (hx : T.HasVar x t) {code : List Instr} {v : Value}
    {value : Store → Option (Int × Store)} (h : Gives w T temps code v value) :
    Changes w T temps (code ++ [.copy v (.var x)]) fun s => do
      let (a, s) ← value s
      return Function.update s x (t.wrap a) := by
  intro n all full rest s σ hall hfull hs hagree
  rw [List.append_assoc] at hs ⊢
  refine .bind (h hall hfull hs hagree) ?_
  rintro ⟨a, s₁⟩ _ ⟨σ₁, rfl, hagree₁, hv⟩
  refine .step (step_copy ((hT.hasVar hx).2 all) hv) ?_
  exact .pure ⟨_, rfl, hagree₁.var x _⟩

theorem simulates_nil : Simulates w T temps current fuel [] fun s => some (.done, s) := by
  intro all full rest s σ _ _ _ hagree
  exact .pure ⟨hagree, rfl⟩

/-- The value is not used. -/
theorem simulates_eval {code : List Instr} {v : Value} {value : Store → Option (Int × Store)}
    (h : Gives w T temps code v value) : Simulates w T temps current fuel code fun s => do
      let (_, s) ← value s
      return (.done, s) := by
  intro all full rest s σ hall hfull hs hagree
  refine .bind (h hall hfull hs hagree) ?_
  rintro ⟨_, s₁⟩ _ ⟨σ₁, rfl, hagree₁, _⟩
  exact .pure ⟨hagree₁, rfl⟩

theorem simulates_leave {id : String} (hid : id ∈ current) :
    Simulates w T temps current fuel [.jump (breakLabel id)] fun s => some (.leave, s) := by
  intro all full rest s σ _ _ _ hagree
  exact .pure ⟨hagree, id, hid, rest, rfl⟩

theorem simulates_next {id : String} (hid : id ∈ current) :
    Simulates w T temps current fuel [.jump (continueLabel id)] fun s => some (.next, s) := by
  intro all full rest s σ _ _ _ hagree
  exact .pure ⟨hagree, id, hid, rest, rfl⟩

theorem simulates_ret {code : List Instr} {v : Value} {value : Store → Option (Int × Store)}
    (h : Gives w T temps code v value) : Simulates w T temps current fuel (code ++ [.ret v]) fun s => do
      let (a, s) ← value s
      return (.ret a, s) := by
  intro all full rest s σ hall hfull hs hagree
  rw [List.append_assoc] at hs ⊢
  refine .bind (h hall hfull hs hagree) ?_
  rintro ⟨a, s₁⟩ _ ⟨σ₁, rfl, hagree₁, hv⟩
  exact .pure ⟨hagree₁, v, rest, rfl, hv⟩

/-! ## Layouts -/

section Layouts

variable {start loop isFalse done : String} {test first last : List Instr × Value} {body other : List Instr}
  {value : Store → Option (Int × Store)} {run run' : Store → Option (Outcome × Store)}

theorem simulates_ifThen (hc : Gives w T temps test.1 test.2 value)
    (hb : Simulates w T temps current fuel body run) :
    Simulates w T temps current fuel (ifThenCode done test body) (fun s => do
      let (v, s) ← value s
      if v = 0 then return (.done, s) else run s) := by
  intro all full rest s σ hall hfull hs hagree
  rw [ifThenCode_append] at hs ⊢
  have hs₁ := suffix_tail (suffix_right hs)
  refine .bind (hc hall hfull hs hagree) ?_
  rintro ⟨v, s₁⟩ _ ⟨σ₁, rfl, hagree₁, hv⟩
  dsimp only
  split
  · next hz =>
    refine .step (step_jumpIfZero (codeAfter_of_suffix hfull (suffix_right hs₁)) (hv.trans hz)) ?_
    exact .pure ⟨hagree₁, rfl⟩
  · next hz =>
    refine .step (step_jumpIfZero_of_ne (hv.trans_ne hz)) ?_
    exact stopsAt_of_steps (hb hall hfull hs₁ hagree₁) fun σ => .single (step_label done)

theorem simulates_ifElse (hc : Gives w T temps test.1 test.2 value)
    (hb : Simulates w T temps current fuel body run) (ho : Simulates w T temps current fuel other run') :
    Simulates w T temps current fuel (ifElseCode isFalse done test body other) (fun s => do
      let (v, s) ← value s
      if v = 0 then run' s else run s) := by
  intro all full rest s σ hall hfull hs hagree
  rw [ifElseCode_append] at hs ⊢
  have hs₁ := suffix_tail (suffix_right hs)
  have hs₂ := suffix_tail (suffix_right hs₁)
  have hdone := codeAfter_of_suffix hfull (suffix_right (suffix_tail hs₂))
  refine .bind (hc hall hfull hs hagree) ?_
  rintro ⟨v, s₁⟩ _ ⟨σ₁, rfl, hagree₁, hv⟩
  dsimp only
  split
  · next hz =>
    refine .step (step_jumpIfZero (codeAfter_of_suffix hfull hs₂) (hv.trans hz)) ?_
    exact stopsAt_of_steps (ho hall hfull (suffix_tail hs₂) hagree₁) fun σ => .single (step_label done)
  · next hz =>
    refine .step (step_jumpIfZero_of_ne (hv.trans_ne hz)) ?_
    exact stopsAt_of_steps (hb hall hfull hs₁ hagree₁) fun σ => .single (step_jump hdone)

/-- The rounds of a loop. What follows a round of it is in `tail`. -/
theorem runs_rounds {full rest testCode : List Instr} (tail : List Instr) {v : Value} {change : Store → Store}
    (hall : temps <+: all) (hfull : (labels full).Nodup)
    (hs : .label start :: (testCode ++ (.jumpIfZero v (breakLabel loop) :: (body ++ (.label (continueLabel loop) ::
      (tail ++ (.jump start :: .label (breakLabel loop) :: rest)))))) <:+ full)
    (hc : Gives w T temps testCode v value) (hb : Simulates w T temps (some loop) fuel body run)
    (ht : Changes w T temps tail fun s => some (change s)) : ∀ (n : Nat) {s σ : Store}, n ≤ fuel → s.Agrees σ →
    Runs w (T.withTemps all) full n (testCode ++ (.jumpIfZero v (breakLabel loop) :: (body ++
      (.label (continueLabel loop) :: (tail ++ (.jump start :: .label (breakLabel loop) :: rest))))), σ)
      (loopRounds value run change n s) (Outcome.StopsAt w current rest) := by
  have hs₁ := suffix_tail (suffix_right (suffix_tail hs))
  have hs₂ := suffix_right hs₁
  have hs₃ := suffix_tail hs₂
  have hbreak := codeAfter_of_suffix hfull (suffix_tail (suffix_right hs₃))
  have hstart := codeAfter_of_suffix hfull hs
  intro n
  -- The jump back takes the step by which the number of rounds goes down.
  induction n with
  | zero =>
    intro s σ _ _
    trivial
  | succ n ih =>
    intro s σ hn hagree
    have hround : ∀ {s σ : Store}, s.Agrees σ → Runs w (T.withTemps all) full (n + 1)
        (tail ++ (.jump start :: .label (breakLabel loop) :: rest), σ) (loopRounds value run change n (change s))
        (Outcome.StopsAt w current rest) := by
      intro s σ hagree
      refine .bind (f := fun s => loopRounds value run change n s) (ht hall hfull hs₃ hagree) ?_
      rintro s₁ _ ⟨σ₁, rfl, hagree₁⟩
      exact .head (step_jump hstart) (ih (by omega) hagree₁)
    rw [loopRounds]
    refine .bind (hc hall hfull (suffix_tail hs) hagree) ?_
    rintro ⟨a, s₁⟩ _ ⟨σ₁, rfl, hagree₁, hv⟩
    dsimp only
    split
    · next hz => exact .step (step_jumpIfZero hbreak (hv.trans hz)) (.pure ⟨hagree₁, rfl⟩)
    · next hz =>
      refine .step (step_jumpIfZero_of_ne (hv.trans_ne hz)) ?_
      refine .bind ((hb hall hfull hs₁ hagree₁).of_le hn) ?_
      rintro ⟨outcome, s₂⟩ ⟨point, σ₂⟩ ⟨hagree₂, hends⟩
      cases outcome with
      | done =>
        cases hends
        exact .step (step_label _) (hround hagree₂)
      | next =>
        obtain ⟨id, hid, more, hpoint⟩ := hends
        cases hid
        cases hpoint
        exact .step (step_jump (codeAfter_of_suffix hfull hs₂)) (hround hagree₂)
      | leave =>
        obtain ⟨id, hid, more, hpoint⟩ := hends
        cases hid
        cases hpoint
        exact .step (step_jump hbreak) (.pure ⟨hagree₂, rfl⟩)
      | ret a => exact .pure ⟨hagree₂, hends⟩

theorem simulates_while (hc : Gives w T temps test.1 test.2 value)
    (hb : Simulates w T temps (some loop) fuel body run) :
    Simulates w T temps current fuel (whileCode start loop test body) (loopRounds value run id fuel) := by
  intro all full rest s σ hall hfull hs hagree
  rw [whileCode_append] at hs ⊢
  refine .step (step_label start) (runs_rounds [] hall hfull hs hc hb ?_ fuel (Nat.le_refl fuel) hagree)
  intro n all full rest s σ _ _ _ hagree
  exact .pure ⟨σ, rfl, hagree⟩

/-- The test of a loop through a range: its variable has not passed the last value. -/
theorem gives_inRange (hT : T.TempFree) {x : String} (hx : T.HasVar x t) {code : List Instr} {v : Value}
    (h : Gives w T temps code v value) : Gives w T (temps ++ [.int32])
      (code ++ [.binary (.compare .le) (.var x) v (.var (numbered "tmp" temps.length))])
      (.var (numbered "tmp" temps.length)) fun s => do
        let (a, s) ← value s
        return (truth (s x ≤ a), s) := by
  intro n all full rest s σ hall hfull hs hagree
  rw [List.append_assoc] at hs ⊢
  refine .bind (h ((List.prefix_append temps _).trans hall) hfull hs hagree) ?_
  rintro ⟨a, s₁⟩ _ ⟨σ₁, rfl, hagree₁, hv⟩
  have hvar : (Value.var x).read w σ₁ = s₁ x := hagree₁ x (hT.hasVar hx).1
  refine .step (step_binary (ty?_temp hall) hvar hv rfl) ?_
  exact .pure ⟨_, rfl, hagree₁.temp _ _, Function.update_self ..⟩

/-- The variable of a loop through a range is counted up. -/
theorem changes_count (hT : T.TempFree) {x : String} (hx : T.HasVar x t) (hi : t.isInteger = true) :
    Changes w T temps [.binary (.arith .add) (.var x) (.ofTy 1 t) (.var x)] fun s =>
      some (Function.update s x (t.wrap (s x + 1))) := by
  intro n all full rest s σ hall hfull hs hagree
  obtain ⟨hne, hty⟩ := hT.hasVar hx
  have hvar : (Value.var x).read w σ = s x := hagree x hne
  refine .step (step_binary (hty all) hvar (read_one hi σ) rfl) ?_
  exact .pure ⟨_, rfl, hagree.var x _⟩

theorem simulates_range (hT : T.TempFree) {x : String} (hx : T.HasVar x t) (hi : t.isInteger = true)
    {firstValue lastValue : Store → Option (Int × Store)} (hp : temps ++ [.int32] <+: temps')
    (hf : Gives w T temps first.1 first.2 firstValue) (hl : Gives w T temps last.1 last.2 lastValue)
    (hb : Simulates w T temps' (some loop) fuel body run) :
    Simulates w T temps' current fuel (rangeCode start loop (.var x) (.ofTy 1 t) (.var (numbered "tmp" temps.length))
      first last body) (fun s => do
        let (a, s) ← firstValue s
        loopRounds (fun s => do
          let (b, s) ← lastValue s
          return (truth (s x ≤ b), s)) run (fun s => Function.update s x (t.wrap (s x + 1))) fuel
          (Function.update s x (t.wrap a))) := by
  have hp' : temps <+: temps' := (List.prefix_append temps _).trans hp
  have happ : ∀ rest, rangeCode start loop (.var x) (.ofTy 1 t) (.var (numbered "tmp" temps.length)) first last body ++
      rest = first.1 ++ (.copy first.2 (.var x) :: .label start ::
        ((last.1 ++ [.binary (.compare .le) (.var x) last.2 (.var (numbered "tmp" temps.length))]) ++
        (.jumpIfZero (.var (numbered "tmp" temps.length)) (breakLabel loop) :: (body ++ (.label (continueLabel loop) ::
        ([.binary (.arith .add) (.var x) (.ofTy 1 t) (.var x)] ++
        (.jump start :: .label (breakLabel loop) :: rest))))))) := by
    simp [rangeCode_append]
  intro all full rest s σ hall hfull hs hagree
  rw [happ] at hs ⊢
  refine .bind (hf (hp'.trans hall) hfull hs hagree) ?_
  rintro ⟨a, s₁⟩ _ ⟨σ₁, rfl, hagree₁, hv⟩
  refine .step (step_copy ((hT.hasVar hx).2 all) hv) (.step (step_label start) ?_)
  exact runs_rounds _ hall hfull (suffix_tail (suffix_right hs)) ((gives_inRange hT hx hl).mono hp) hb
    (changes_count hT hx hi) fuel (Nat.le_refl fuel) (hagree₁.var x _)

end Layouts

end Pieces

end Ir

/-! ## Lowering -/

section Lower

variable {T : SymbolTable} {E : Fault → Prop} {ret : Ty}

theorem Expr.lower_gives (hT : T.IsSound) (hfree : T.TempFree) {e : Expr} {t : Ty} {temps : List Ty}
    {st : LoweringState} (he : e.HasTy T t) (hst : Made T temps st) :
    Ensures e.lower st E fun r st' => ∃ temps', temps <+: temps' ∧ Made T temps' st' ∧
      ∀ w, Gives w T temps' r.1 r.2 (e.value w T .atUse) := by
  refine (e.lower_computes hT hfree he hst).mono ?_
  rintro r st' ⟨temps', hp, hst', hcode⟩
  exact ⟨temps', hp, hst', fun w => (hcode w).gives⟩

theorem VarDecl.lower_changes (hT : T.IsSound) (hfree : T.TempFree) {d : VarDecl} {temps : List Ty}
    {st : LoweringState} (hd : d.WellTyped T) (hst : Made T temps st) :
    Ensures d.lower st E fun code st' => ∃ temps', temps <+: temps' ∧ Made T temps' st' ∧
      ∀ w, Changes w T temps' code (d.run w T .atUse) := by
  unfold VarDecl.lower
  split
  · next e hs hi =>
    refine .bind (Expr.lower_gives hT hfree (hd.2 e hi) hst) ?_
    rintro ⟨code, src⟩ st₁ ⟨temps₁, hp₁, hst₁, hcode⟩
    refine .pure ⟨temps₁, hp₁, hst₁, fun w => ?_⟩
    unfold VarDecl.run
    simp only [hs, hi]
    exact changes_copy hfree hd.1 (hcode w)
  · next hno =>
    have hrun : ∀ w s, d.run w T .atUse s = some s := by
      intro w s
      unfold VarDecl.run
      split
      · next e hs hi => exact (hno e hs hi).elim
      · rfl
    refine .pure ⟨temps, List.prefix_refl temps, hst, fun w => ?_⟩
    intro n all full rest s σ _ _ _ hagree
    rw [hrun]
    exact .pure ⟨σ, rfl, hagree⟩

mutual
/-- A well-typed statement is lowered to code that does what it does, if no variable bears the name of a temporary. -/
theorem Stmt.lower_simulates (hT : T.IsSound) (hfree : T.TempFree) : ∀ (s : Stmt) {current : Option String}
    {temps : List Ty} {st : LoweringState}, s.WellTyped T ret → s.Labelled current → Made T temps st →
    Ensures s.lower st E fun code st' => ∃ temps', temps <+: temps' ∧ Made T temps' st' ∧
      ∀ w fuel, Simulates w T temps' current fuel code (s.run w T .atUse fuel)
  | .eval e, _, temps, st, hw, _, hst => by
    rw [Stmt.lower]
    obtain ⟨t, he⟩ := Expr.WellTyped.hasTy hT hw
    refine .bind (Expr.lower_gives hT hfree he hst) ?_
    rintro ⟨code, _⟩ st₁ ⟨temps₁, hp₁, hst₁, hcode⟩
    exact .pure ⟨temps₁, hp₁, hst₁, fun w fuel => simulates_eval (hcode w)⟩
  | .ret none _, _, temps, st, _, _, hst => by
    rw [Stmt.lower]
    refine .pure ⟨temps, List.prefix_refl temps, hst, fun w fuel => ?_⟩
    intro all full rest s σ _ _ _ hagree
    rw [Stmt.run]
    exact .pure ⟨hagree, .int 0, rest, rfl, rfl⟩
  | .ret (some e) _, _, temps, st, hw, _, hst => by
    rw [Stmt.lower]
    refine .bind (Expr.lower_gives hT hfree (hw e rfl) hst) ?_
    rintro ⟨code, value⟩ st₁ ⟨temps₁, hp₁, hst₁, hcode⟩
    exact .pure ⟨temps₁, hp₁, hst₁, fun w fuel => simulates_ret (hcode w)⟩
  | .ifThen c s, _, temps, st, ⟨hc, hs⟩, hl, hst => by
    rw [Stmt.lower]
    obtain ⟨t, hc⟩ := hc.hasTy hT
    refine .bind (Lowering.label_made hst "if_end") fun done st₁ hst₁ => ?_
    refine .bind (Expr.lower_gives hT hfree hc hst₁) ?_
    rintro test st₂ ⟨temps₂, hp₂, hst₂, htest⟩
    refine .bind (s.lower_simulates hT hfree hs hl hst₂) ?_
    rintro yes st₃ ⟨temps₃, hp₃, hst₃, hyes⟩
    exact .pure ⟨temps₃, hp₂.trans hp₃, hst₃, fun w fuel => simulates_ifThen ((htest w).mono hp₃) (hyes w fuel)⟩
  | .ifElse c s s', _, temps, st, ⟨hc, hs, hs'⟩, ⟨hl, hl'⟩, hst => by
    rw [Stmt.lower]
    obtain ⟨t, hc⟩ := hc.hasTy hT
    refine .bind (Lowering.label_made hst "if_else") fun isFalse st₁ hst₁ => ?_
    refine .bind (Lowering.label_made hst₁ "if_end") fun done st₂ hst₂ => ?_
    refine .bind (Expr.lower_gives hT hfree hc hst₂) ?_
    rintro test st₃ ⟨temps₃, hp₃, hst₃, htest⟩
    refine .bind (s.lower_simulates hT hfree hs hl hst₃) ?_
    rintro yes st₄ ⟨temps₄, hp₄, hst₄, hyes⟩
    refine .bind (s'.lower_simulates hT hfree hs' hl' hst₄) ?_
    rintro no st₅ ⟨temps₅, hp₅, hst₅, hno⟩
    exact .pure ⟨temps₅, (hp₃.trans hp₄).trans hp₅, hst₅, fun w fuel =>
      simulates_ifElse ((htest w).mono (hp₄.trans hp₅)) ((hyes w fuel).mono hp₅) (hno w fuel)⟩
  | .block items, _, temps, st, hw, hl, hst => by
    rw [Stmt.lower]
    exact lowerItems_simulates hT hfree items hw hl hst
  | .whileLoop c body id, _, temps, st, ⟨hc, hb⟩, ⟨hid, hl⟩, hst => by
    rw [Stmt.lower]
    obtain ⟨t, hc⟩ := hc.hasTy hT
    refine .bind (Lowering.loopId_of_isSome "while" hid st) ?_
    rintro i _ ⟨rfl, rfl⟩
    refine .bind (Lowering.label_made hst "while_start") fun start st₁ hst₁ => ?_
    refine .bind (Expr.lower_gives hT hfree hc hst₁) ?_
    rintro test st₂ ⟨temps₂, hp₂, hst₂, htest⟩
    refine .bind (lowerItems_simulates hT hfree body hb hl hst₂) ?_
    rintro code st₃ ⟨temps₃, hp₃, hst₃, hbody⟩
    exact .pure ⟨temps₃, hp₂.trans hp₃, hst₃, fun w fuel => simulates_while ((htest w).mono hp₃) (hbody w fuel)⟩
  | .loop var control body id, _, temps, st, ⟨hc, hvar, hb⟩, ⟨hid, hl⟩, hst => by
    rw [Stmt.lower]
    refine .bind (Lowering.loopId_of_isSome "loop" hid st) ?_
    rintro i _ ⟨rfl, rfl⟩
    refine .bind (Lowering.label_made hst "loop_start") fun start st₁ hst₁ => ?_
    split
    · next ident note l r =>
      obtain ⟨t, hx, hty⟩ := hvar ident rfl
      obtain ⟨hlw, hrw, u, hi, hlu, hru, hu⟩ := hc
      cases hu.symm.trans (hty rfl)
      refine .bind (ident.loopTy_typed hT hx hst₁) ?_
      rintro ty _ ⟨rfl, hone⟩
      obtain rfl := hone hfree
      refine .bind (Expr.lower_gives hT hfree ⟨hlw, hlu⟩ hst₁) ?_
      rintro first st₂ ⟨temps₂, hp₂, hst₂, hfirst⟩
      refine .bind (Expr.lower_gives hT hfree ⟨hrw, hru⟩ hst₂) ?_
      rintro last st₃ ⟨temps₃, hp₃, hst₃, hlast⟩
      refine .bind (Lowering.temp_made hst₃ rfl) ?_
      rintro _ st₄ ⟨rfl, hst₄⟩
      refine .bind (lowerItems_simulates hT hfree body hb hl hst₄) ?_
      rintro code st₅ ⟨temps₅, hp₅, hst₅, hbody⟩
      have hp₃₅ := (List.prefix_append temps₃ _).trans hp₅
      refine .pure ⟨temps₅, (hp₂.trans hp₃).trans hp₃₅, hst₅, fun w fuel => ?_⟩
      intro all full rest s σ hall hfull hs hagree
      rw [Stmt.run]
      refine .known hu ?_
      exact simulates_range hfree hx hi hp₅ ((hfirst w).mono hp₃) (hlast w) (hbody w fuel) hall hfull hs hagree
    · next hno =>
      obtain ⟨t, hc⟩ := hc.hasTy hT
      refine .bind (Expr.lower_gives hT hfree hc hst₁) ?_
      rintro test st₂ ⟨temps₂, hp₂, hst₂, htest⟩
      refine .bind (lowerItems_simulates hT hfree body hb hl hst₂) ?_
      rintro code st₃ ⟨temps₃, hp₃, hst₃, hbody⟩
      refine .pure ⟨temps₃, hp₂.trans hp₃, hst₃, fun w fuel => ?_⟩
      intro all full rest s σ hall hfull hs hagree
      rw [Stmt.run]
      · exact simulates_while ((htest w).mono hp₃) (hbody w fuel) hall hfull hs hagree
      · exact hno
  | .leave _ id, _, temps, st, _, ⟨hid, hcurrent⟩, hst => by
    rw [Stmt.lower]
    refine .bind (Lowering.loopId_of_isSome "break" hid st) ?_
    rintro i _ ⟨rfl, rfl⟩
    exact .pure ⟨temps, List.prefix_refl temps, hst, fun w fuel => simulates_leave hcurrent.symm⟩
  | .next _ id, _, temps, st, _, ⟨hid, hcurrent⟩, hst => by
    rw [Stmt.lower]
    refine .bind (Lowering.loopId_of_isSome "continue" hid st) ?_
    rintro i _ ⟨rfl, rfl⟩
    exact .pure ⟨temps, List.prefix_refl temps, hst, fun w fuel => simulates_next hcurrent.symm⟩
  | .skip, _, temps, st, _, _, hst => by
    rw [Stmt.lower]
    exact .pure ⟨temps, List.prefix_refl temps, hst, fun w fuel => simulates_nil⟩

theorem lowerItems_simulates (hT : T.IsSound) (hfree : T.TempFree) : ∀ (items : List Item) {current : Option String}
    {temps : List Ty} {st : LoweringState}, itemsWellTyped T ret items → itemsLabelled current items →
    Made T temps st → Ensures (lowerItems items) st E fun code st' => ∃ temps', temps <+: temps' ∧ Made T temps' st' ∧
      ∀ w fuel, Simulates w T temps' current fuel code (runItems w T .atUse fuel items)
  | [], _, temps, st, _, _, hst => by
    rw [lowerItems]
    exact .pure ⟨temps, List.prefix_refl temps, hst, fun w fuel => simulates_nil⟩
  | .stmt s :: rest, _, temps, st, ⟨hs, hr⟩, ⟨hl, hlr⟩, hst => by
    rw [lowerItems]
    refine .bind (s.lower_simulates hT hfree hs hl hst) ?_
    rintro code st₁ ⟨temps₁, hp₁, hst₁, hcode⟩
    refine .bind (lowerItems_simulates hT hfree rest hr hlr hst₁) ?_
    rintro codes st₂ ⟨temps₂, hp₂, hst₂, hcodes⟩
    exact .pure ⟨temps₂, hp₁.trans hp₂, hst₂, fun w fuel => ((hcode w fuel).mono hp₂).append (hcodes w fuel)⟩
  | .var d :: rest, _, temps, st, ⟨hd, hr⟩, hl, hst => by
    rw [lowerItems]
    refine .bind (VarDecl.lower_changes hT hfree hd hst) ?_
    rintro code st₁ ⟨temps₁, hp₁, hst₁, hcode⟩
    refine .bind (lowerItems_simulates hT hfree rest hr hl hst₁) ?_
    rintro codes st₂ ⟨temps₂, hp₂, hst₂, hcodes⟩
    exact .pure ⟨temps₂, hp₁.trans hp₂, hst₂, fun w fuel => ((hcode w).mono hp₂).append (hcodes w fuel)⟩
end

end Lower

end Khel
