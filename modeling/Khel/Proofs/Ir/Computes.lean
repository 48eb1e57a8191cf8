import Khel.Proofs.Ir.Runs
import Khel.Proofs.Ir.Typed
import Khel.Proofs.Program.Semantics

/-!
# Lowered expressions compute what they stand for

Intermediate code runs beside the program it was lowered from. Their stores agree on everything that is not a temporary,
and a temporary is not written again once the expression that it was made for has been computed.

An operand stays in its variable until it is used, so intermediate code reads operands *at use*.

* `Ir.Computes`: a piece of code computes an expression.
* `Expr.lower_computes`: lowering an expression gives such a piece.
-/

namespace Khel

/-! ## Stores -/

/-- The stores agree on every name that is not that of a temporary. -/
def Store.Agrees (s σ : Store) : Prop := ∀ x, (∀ n, x ≠ numbered "tmp" n) → σ x = s x

/-- The first `n` temporaries keep their values. -/
def Store.KeepsTemps (n : Nat) (σ σ' : Store) : Prop := ∀ m < n, σ' (numbered "tmp" m) = σ (numbered "tmp" m)

section Stores

variable {s s' σ σ' σ'' : Store} {n m : Nat} {x : String} {v : Int}

theorem Store.KeepsTemps.refl (n : Nat) (σ : Store) : KeepsTemps n σ σ := fun _ _ => rfl

theorem Store.KeepsTemps.trans (h : KeepsTemps n σ σ') (h' : KeepsTemps m σ' σ'') (hle : n ≤ m) :
    KeepsTemps n σ σ'' := by
  intro k hk
  rw [h' k (by omega), h k hk]

theorem Store.KeepsTemps.mono (h : KeepsTemps m σ σ') (hle : n ≤ m) : KeepsTemps n σ σ' :=
  fun k hk => h k (by omega)

/-- A temporary may be written. -/
theorem Store.Agrees.temp (h : s.Agrees σ) (n : Nat) (v : Int) : s.Agrees (Function.update σ (numbered "tmp" n) v) := by
  intro x hx
  rw [Function.update_of_ne (hx n)]
  exact h x hx

theorem Store.keepsTemps_temp (h : n ≤ m) (σ : Store) (v : Int) :
    KeepsTemps n σ (Function.update σ (numbered "tmp" m) v) := by
  intro k hk
  refine Function.update_of_ne (fun he => ?_) v σ
  have := (numbered_inj.1 he).2
  omega

/-- A variable is written on both sides. -/
theorem Store.Agrees.var (h : s.Agrees σ) (x : String) (v : Int) :
    Agrees (Function.update s x v) (Function.update σ x v) := by
  intro y hy
  by_cases hxy : y = x
  · subst hxy
    simp
  · simpa [hxy] using h y hy

theorem Store.keepsTemps_var (hx : ∀ m, x ≠ numbered "tmp" m) (n : Nat) (σ : Store) (v : Int) :
    KeepsTemps n σ (Function.update σ x v) := fun m _ => Function.update_of_ne (hx m).symm v σ

end Stores

/-- A variable of the program is not a temporary, and it keeps its type when temporaries are added. -/
theorem SymbolTable.TempFree.hasVar {T : SymbolTable} (hT : T.TempFree) {x : String} {t : Ty} (hx : T.HasVar x t) :
    (∀ n, x ≠ numbered "tmp" n) ∧ ∀ temps, (Ir.Value.var x).ty? (T.withTemps temps) = some t := by
  obtain ⟨sym, hsym, _, rfl⟩ := hx
  constructor
  · rintro n rfl
    rw [hT n] at hsym
    cases hsym
  · intro temps
    rw [Ir.Value.ty?, hT.get?_withTemps hsym]
    rfl

/-- Temporaries are not static. -/
theorem SymbolTable.TempFree.isStatic_withTemps {T : SymbolTable} (hT : T.TempFree) (temps : List Ty) (x : String) :
    (T.withTemps temps).isStatic x = T.isStatic x := by
  unfold SymbolTable.isStatic
  rcases SymbolTable.temp_cases temps x with ⟨n, t, rfl, hn⟩ | hx
  · rw [SymbolTable.get?_withTemps_temp hn, hT n]
    rfl
  · rw [SymbolTable.get?_withTemps_of_ne hx]

/-- A call does the same on both sides. -/
theorem World.answer_agrees {T : SymbolTable} (hT : T.TempFree) (w : World) (temps : List Ty) (f : String)
    (args : List Int) {s σ : Store} (h : s.Agrees σ) :
    ∃ σ', w.answer (T.withTemps temps) f args σ = ((w.answer T f args s).1, σ') ∧
      (w.answer T f args s).2.Agrees σ' ∧ ∀ n, Store.KeepsTemps n σ σ' := by
  have hstatic := hT.isStatic_withTemps temps
  have hnot : ∀ x, T.isStatic x = true → ∀ n, x ≠ numbered "tmp" n := by
    rintro x hx n rfl
    simp [SymbolTable.isStatic, hT n] at hx
  have hsame : σ.statics (T.withTemps temps) = s.statics T := by
    funext x
    unfold Store.statics
    rw [hstatic]
    split
    · next hx => exact h x (hnot x hx)
    · rfl
  refine ⟨_, by unfold World.answer; rw [hsame], ?_, ?_⟩
  · intro x hx
    simp only [World.answer, Store.setStatics, hstatic]
    split
    · rfl
    · exact h x hx
  · intro n m hm
    have : T.isStatic (numbered "tmp" m) = false := by simp [SymbolTable.isStatic, hT m]
    simp [Store.setStatics, hstatic, this]

/-! ## Results -/

/-- The value holds the result, also after the temporaries from the `n`th on have been written. -/
def Result.HeldBy (w : World) (n : Nat) (σ : Store) (v : Ir.Value) : Result → Prop
  | .value a => v.read w σ = a ∧ ∀ x, v = .var x → ∃ m < n, x = numbered "tmp" m
  | .place x => v = .var x ∧ ∀ m, x ≠ numbered "tmp" m

section HeldBy

variable {w : World} {n n' : Nat} {s σ σ' : Store} {v : Ir.Value} {r : Result}

/-- The value holds the result now. -/
theorem Result.HeldBy.now (h : r.HeldBy w n σ v) (hagree : s.Agrees σ) : v.read w σ = r.read s := by
  cases r with
  | value a => exact h.1
  | place x =>
    obtain ⟨rfl, hx⟩ := h
    exact hagree x hx

theorem Result.HeldBy.mono (h : r.HeldBy w n σ v) (hkeep : Store.KeepsTemps n σ σ') (hle : n ≤ n') :
    r.HeldBy w n' σ' v := by
  cases r with
  | value a =>
    obtain ⟨ha, hv⟩ := h
    cases v with
    | var x =>
      obtain ⟨m, hm, rfl⟩ := hv x rfl
      refine ⟨(hkeep m hm).trans ha, fun y hy => ?_⟩
      cases hy
      exact ⟨m, by omega, rfl⟩
    | int _ | long _ | str _ => exact ⟨ha, nofun⟩
  | place x => exact h

/-- The value still holds the result later, when it is used. -/
theorem Result.HeldBy.read (h : r.HeldBy w n σ v) (hkeep : Store.KeepsTemps n σ σ') (hagree : s.Agrees σ') :
    v.read w σ' = r.read s := (h.mono hkeep (Nat.le_refl n)).now hagree

end HeldBy

namespace Ir

/-! ## Pieces of code -/

/-- A piece of code computes what `eval` says: run beside it, the code comes out behind its end with a store that
agrees, the temporaries `temps` keep their values, and the value `v` holds the result for as long as the temporaries
`temps'` do. The code is a piece of the function `full`, which was lowered with the temporaries `all`. -/
def Computes (w : World) (T : SymbolTable) (temps temps' : List Ty) (code : List Instr) (v : Value)
    (eval : Store → Option (Result × Store)) : Prop :=
  ∀ ⦃n : Nat⦄ ⦃all : List Ty⦄ ⦃full rest : List Instr⦄ ⦃s σ : Store⦄, temps' <+: all → (labels full).Nodup →
    code ++ rest <:+ full → s.Agrees σ → Runs w (T.withTemps all) full n (code ++ rest, σ) (eval s) fun p c =>
      ∃ σ', c = (rest, σ') ∧ p.2.Agrees σ' ∧ Store.KeepsTemps temps.length σ σ' ∧ p.1.HeldBy w temps'.length σ' v

section Pieces

variable {w : World} {T : SymbolTable} {temps temps₁ temps₂ temps₃ all : List Ty} {t : Ty}

/-- A temporary has the type that it was made with. -/
theorem ty?_temp (h : temps ++ [t] <+: all) :
    (Value.var (numbered "tmp" temps.length)).ty? (T.withTemps all) = some t := by
  have hn : all[temps.length]? = some t := by
    obtain ⟨more, rfl⟩ := h
    simp
  rw [Value.ty?, SymbolTable.get?_withTemps_temp hn]
  rfl

/-- A result that was written to a temporary. -/
theorem temp_written {n k bound : Nat} {rest : List Instr} {s σ σ₁ : Store} {v : Int} (hk : k ≤ n) (hn : n < bound)
    (hagree : s.Agrees σ₁) (hkeep : Store.KeepsTemps k σ σ₁) :
    ∃ σ', (rest, Function.update σ₁ (numbered "tmp" n) v) = (rest, σ') ∧ s.Agrees σ' ∧ Store.KeepsTemps k σ σ' ∧
      (Result.value v).HeldBy w bound σ' (.var (numbered "tmp" n)) := by
  refine ⟨_, rfl, hagree.temp n v, hkeep.trans (Store.keepsTemps_temp hk σ₁ v) (Nat.le_refl k), ?_, ?_⟩
  · simp [Value.read]
  · intro x hx
    cases hx
    exact ⟨n, hn, rfl⟩

theorem read_one (hi : t.isInteger = true) (σ : Store) : (Value.ofTy 1 t).read w σ = 1 := by
  cases t <;> simp_all [Value.ofTy, Value.read, Ty.isInteger]

/-- A value that needs no code. -/
theorem computes_nil {v : Value} {r : Result} (hr : ∀ σ, r.HeldBy w temps.length σ v) :
    Computes w T temps temps [] v fun s => some (r, s) := by
  intro n all full rest s σ _ _ _ hagree
  exact .pure ⟨σ, rfl, hagree, .refl _ σ, hr σ⟩

theorem computes_unary {note : Note} {op : UnaryOp} {a : Expr} {code : List Instr} {src : Value} (hp : temps <+: temps₁)
    (ht : note.ty = some t) (ha : Computes w T temps temps₁ code src (a.eval w T .atUse)) :
    Computes w T temps (temps₁ ++ [t]) (code ++ [.unary op src (.var (numbered "tmp" temps₁.length))])
      (.var (numbered "tmp" temps₁.length)) ((Expr.unary note op a).eval w T .atUse) := by
  intro n all full rest s σ hall hfull hs hagree
  rw [List.append_assoc] at hs ⊢
  rw [Expr.eval]
  refine .known ht ?_
  refine .bind (ha ((List.prefix_append temps₁ [t]).trans hall) hfull hs hagree) ?_
  rintro ⟨ra, s₁⟩ _ ⟨σ₁, rfl, hagree₁, hkeep, hheld⟩
  refine .step (step_unary (ty?_temp hall) op (hheld.now hagree₁)) ?_
  exact .pure (temp_written hp.length_le (by simp) hagree₁ hkeep)

theorem computes_strict {note : Note} {op : StrictOp} {l r : Expr} {codeL codeR : List Instr} {left right : Value}
    (hp₁ : temps <+: temps₁) (hp₂ : temps₁ <+: temps₂) (ht : note.ty = some t)
    (hl : Computes w T temps temps₁ codeL left (l.eval w T .atUse))
    (hr : Computes w T temps₁ temps₂ codeR right (r.eval w T .atUse)) :
    Computes w T temps (temps₂ ++ [t]) (codeL ++ codeR ++ [.binary op left right (.var (numbered "tmp" temps₂.length))])
      (.var (numbered "tmp" temps₂.length)) ((Expr.binary note (.strict op) l r).eval w T .atUse) := by
  intro n all full rest s σ hall hfull hs hagree
  have hall₂ : temps₂ <+: all := (List.prefix_append temps₂ [t]).trans hall
  rw [List.append_assoc, List.append_assoc] at hs ⊢
  rw [Expr.eval]
  refine .known ht ?_
  refine .bind (hl (hp₂.trans hall₂) hfull hs hagree) ?_
  rintro ⟨a, s₁⟩ _ ⟨σ₁, rfl, hagree₁, hkeep₁, hheld₁⟩
  refine .bind (hr hall₂ hfull (suffix_right hs) hagree₁) ?_
  rintro ⟨b, s₂⟩ _ ⟨σ₂, rfl, hagree₂, hkeep₂, hheld₂⟩
  refine .bind (runs_binary (ty?_temp hall) op (hheld₁.read hkeep₂ hagree₂) (hheld₂.now hagree₂) n) ?_
  rintro v _ rfl
  exact .pure (temp_written (hp₁.trans hp₂).length_le (by simp) hagree₂ (hkeep₁.trans hkeep₂ hp₁.length_le))

theorem computes_range {note : Note} {l r : Expr} {codeL codeR : List Instr} {first last : Value}
    (hp₁ : temps <+: temps₁) (hp₂ : temps₁ <+: temps₂) (ht : note.ty = some t) (hi : t.isInteger = true)
    (hl : Computes w T temps temps₁ codeL first (l.eval w T .atUse))
    (hr : Computes w T temps₁ temps₂ codeR last (r.eval w T .atUse)) :
    Computes w T temps (temps₂ ++ [t]) (codeL ++ codeR ++
      [.binary (.arith .sub) last first (.var (numbered "tmp" temps₂.length)),
        .binary (.arith .add) (.var (numbered "tmp" temps₂.length)) (.ofTy 1 t) (.var (numbered "tmp" temps₂.length))])
      (.var (numbered "tmp" temps₂.length)) ((Expr.range note l r).eval w T .atUse) := by
  intro n all full rest s σ hall hfull hs hagree
  have hall₂ : temps₂ <+: all := (List.prefix_append temps₂ [t]).trans hall
  have hle := (hp₁.trans hp₂).length_le
  have hty := ty?_temp (T := T) hall
  rw [List.append_assoc, List.append_assoc] at hs ⊢
  rw [Expr.eval]
  refine .known ht ?_
  refine .bind (hl (hp₂.trans hall₂) hfull hs hagree) ?_
  rintro ⟨a, s₁⟩ _ ⟨σ₁, rfl, hagree₁, hkeep₁, hheld₁⟩
  refine .bind (hr hall₂ hfull (suffix_right hs) hagree₁) ?_
  rintro ⟨b, s₂⟩ _ ⟨σ₂, rfl, hagree₂, hkeep₂, hheld₂⟩
  -- The difference goes to the temporary first, and is counted up there.
  refine .step (step_binary hty (hheld₂.now hagree₂) (hheld₁.read hkeep₂ hagree₂) rfl) ?_
  have hkeep := hkeep₁.trans hkeep₂ hp₁.length_le
  have hkeep₃ := hkeep.trans (Store.keepsTemps_temp hle σ₂ (t.wrap (b.read s₂ - a.read s₂))) (Nat.le_refl _)
  refine .step (step_binary hty (Function.update_self ..) (read_one hi _) rfl) ?_
  exact .pure (temp_written hle (by simp) (hagree₂.temp _ _) hkeep₃)

/-- A change of width. -/
theorem computes_cast {note : Note} {target : Ty} {a : Expr} {code : List Instr} {src : Value} {last : Instr}
    (hp : temps <+: temps₁) (hlast : last = .signExtend src (.var (numbered "tmp" temps₁.length)) ∨
      last = .truncate src (.var (numbered "tmp" temps₁.length)))
    (ha : Computes w T temps temps₁ code src (a.eval w T .atUse)) :
    Computes w T temps (temps₁ ++ [target]) (code ++ [last]) (.var (numbered "tmp" temps₁.length))
      ((Expr.cast note target a).eval w T .atUse) := by
  intro n all full rest s σ hall hfull hs hagree
  rw [List.append_assoc] at hs ⊢
  rw [Expr.eval]
  refine .bind (ha ((List.prefix_append temps₁ [target]).trans hall) hfull hs hagree) ?_
  rintro ⟨ra, s₁⟩ _ ⟨σ₁, rfl, hagree₁, hkeep, hheld⟩
  rcases hlast with rfl | rfl
  · refine .step (step_signExtend (ty?_temp hall) (hheld.now hagree₁)) ?_
    exact .pure (temp_written hp.length_le (by simp) hagree₁ hkeep)
  · refine .step (step_truncate (ty?_temp hall) (hheld.now hagree₁)) ?_
    exact .pure (temp_written hp.length_le (by simp) hagree₁ hkeep)

theorem computes_assign (hT : T.TempFree) {note note' : Note} {x : String} {e : Expr} {code : List Instr} {src : Value}
    (hx : T.HasVar x t) (ht : note.ty = some t) (he : Computes w T temps temps₁ code src (e.eval w T .atUse)) :
    Computes w T temps temps₁ (code ++ [.copy src (.var x)]) (.var x)
      ((Expr.assign note (.var note' x) e).eval w T .atUse) := by
  intro n all full rest s σ hall hfull hs hagree
  obtain ⟨hne, hty⟩ := hT.hasVar hx
  rw [List.append_assoc] at hs ⊢
  rw [Expr.eval]
  refine .known ht ?_
  refine .bind (he hall hfull hs hagree) ?_
  rintro ⟨re, s₁⟩ _ ⟨σ₁, rfl, hagree₁, hkeep, hheld⟩
  refine .step (step_copy (hty all) (hheld.now hagree₁)) ?_
  exact .pure ⟨_, rfl, hagree₁.var x _, hkeep.trans (Store.keepsTemps_var hne _ σ₁ _) (Nat.le_refl _), rfl, hne⟩

/-- Both logical operators. The instruction `branch` goes to the label `exit` if whether its operand is zero is `zero`;
the result is then `y`, and it is `x` if neither operand goes there. -/
theorem computes_shortCircuit {l r : Expr} {codeL codeR : List Instr} {left right : Value} {exit : String}
    (done : String) (branch : Value → Instr) (zero : Bool) (x y : Int32)
    (hjump : ∀ {T : SymbolTable} {full rest target : List Instr} {σ : Store} {v : Value},
      codeAfter exit full = some target → decide (v.read w σ = 0) = zero →
      Step w T full (branch v :: rest, σ) (target, σ))
    (hpass : ∀ {T : SymbolTable} {full rest : List Instr} {σ : Store} {v : Value}, decide (v.read w σ = 0) ≠ zero →
      Step w T full (branch v :: rest, σ) (rest, σ))
    (hp₁ : temps ++ [.int32] <+: temps₁) (hp₂ : temps₁ <+: temps₂)
    (hl : Computes w T (temps ++ [.int32]) temps₁ codeL left (l.eval w T .atUse))
    (hr : Computes w T temps₁ temps₂ codeR right (r.eval w T .atUse)) :
    Computes w T temps temps₂ (codeL ++ branch left :: codeR ++ [branch right,
        .copy (.int x) (.var (numbered "tmp" temps.length)), .jump done, .label exit,
        .copy (.int y) (.var (numbered "tmp" temps.length)), .label done])
      (.var (numbered "tmp" temps.length)) fun s => do
        let (a, s) ← l.eval w T .atUse s
        if decide (a.read s = 0) = zero then return (.value (Ty.int32.wrap y.toInt), s)
        else
          let (b, s) ← r.eval w T .atUse s
          return (.value (Ty.int32.wrap (if decide (b.read s = 0) = zero then y.toInt else x.toInt)), s) := by
  intro n all full rest s σ hall hfull hs hagree
  have hle := (hp₁.trans hp₂).length_le
  have hlt : temps.length < temps₂.length := by
    simp only [List.length_append, List.length_singleton] at hle
    omega
  have hty : (Value.var (numbered "tmp" temps.length)).ty? (T.withTemps all) = some .int32 :=
    ty?_temp ((hp₁.trans hp₂).trans hall)
  simp only [List.append_assoc, List.cons_append, List.nil_append] at hs ⊢
  have hs₁ := suffix_tail (suffix_right hs)
  have hs₂ := suffix_tail (suffix_tail (suffix_tail (suffix_right hs₁)))
  have hexit := codeAfter_of_suffix hfull hs₂
  have hdone := codeAfter_of_suffix hfull (suffix_tail (suffix_tail hs₂))
  refine .bind (hl (hp₂.trans hall) hfull hs hagree) ?_
  rintro ⟨a, s₁⟩ _ ⟨σ₁, rfl, hagree₁, hkeep₁, hheld₁⟩
  have hkeep₁' : Store.KeepsTemps temps.length σ σ₁ := hkeep₁.mono (by simp)
  dsimp only
  split
  · next hz =>
    refine .step (hjump hexit (by rw [hheld₁.now hagree₁, hz])) ?_
    refine .step (step_copy hty rfl) (.step (step_label done) ?_)
    exact .pure (temp_written (Nat.le_refl _) hlt hagree₁ hkeep₁')
  · next hz =>
    refine .step (hpass (by rw [hheld₁.now hagree₁]; exact hz)) ?_
    refine .bind (hr hall hfull hs₁ hagree₁) ?_
    rintro ⟨b, s₂⟩ _ ⟨σ₂, rfl, hagree₂, hkeep₂, hheld₂⟩
    have hkeep : Store.KeepsTemps temps.length σ σ₂ := hkeep₁'.trans (hkeep₂.mono hp₁.length_le) (by simp)
    dsimp only
    split
    · next hz' =>
      refine .step (hjump hexit (by rw [hheld₂.now hagree₂, hz'])) ?_
      refine .step (step_copy hty rfl) (.step (step_label done) ?_)
      exact .pure (temp_written (Nat.le_refl _) hlt hagree₂ hkeep)
    · next hz' =>
      refine .step (hpass (by rw [hheld₂.now hagree₂]; exact hz')) ?_
      refine .step (step_copy hty rfl) (.step (step_jump hdone) ?_)
      exact .pure (temp_written (Nat.le_refl _) hlt hagree₂ hkeep)

theorem Computes.of_eq {code : List Instr} {v : Value} {eval eval' : Store → Option (Result × Store)}
    (h : Computes w T temps temps₁ code v eval) (he : ∀ s, eval' s = eval s) :
    Computes w T temps temps₁ code v eval' := by
  have : eval' = eval := funext he
  exact this ▸ h

theorem computes_and {note : Note} {l r : Expr} {left right : List Instr × Value} (isFalse done : String)
    (hp₁ : temps ++ [.int32] <+: temps₁) (hp₂ : temps₁ <+: temps₂)
    (hl : Computes w T (temps ++ [.int32]) temps₁ left.1 left.2 (l.eval w T .atUse))
    (hr : Computes w T temps₁ temps₂ right.1 right.2 (r.eval w T .atUse)) :
    Computes w T temps temps₂ (andCode isFalse done left right (.var (numbered "tmp" temps.length)))
      (.var (numbered "tmp" temps.length)) ((Expr.binary note .logicalAnd l r).eval w T .atUse) := by
  have hboth := computes_shortCircuit done (fun v => .jumpIfZero v isFalse) true 1 0
    (fun hl h => step_jumpIfZero hl (by simpa using h)) (fun h => step_jumpIfZero_of_ne (by simpa using h))
    hp₁ hp₂ hl hr
  refine hboth.of_eq fun s => ?_
  simp only [Expr.eval, Option.bind_eq_bind, Option.pure_def, decide_eq_true_eq]
  refine Option.bind_congr fun p _ => ?_
  split
  · rfl
  · refine Option.bind_congr fun q _ => ?_
    by_cases hq : q.1.read q.2 = 0 <;> simp [hq, truth] <;> rfl

theorem computes_or {note : Note} {l r : Expr} {left right : List Instr × Value} (isTrue done : String)
    (hp₁ : temps ++ [.int32] <+: temps₁) (hp₂ : temps₁ <+: temps₂)
    (hl : Computes w T (temps ++ [.int32]) temps₁ left.1 left.2 (l.eval w T .atUse))
    (hr : Computes w T temps₁ temps₂ right.1 right.2 (r.eval w T .atUse)) :
    Computes w T temps temps₂ (orCode isTrue done left right (.var (numbered "tmp" temps.length)))
      (.var (numbered "tmp" temps.length)) ((Expr.binary note .logicalOr l r).eval w T .atUse) := by
  have hboth := computes_shortCircuit done (fun v => .jumpIfNotZero v isTrue) false 0 1
    (fun hl h => step_jumpIfNotZero hl (by simpa using h)) (fun h => step_jumpIfNotZero_of_eq (by simpa using h))
    hp₁ hp₂ hl hr
  refine hboth.of_eq fun s => ?_
  simp only [Expr.eval, Option.bind_eq_bind, Option.pure_def, decide_eq_false_iff_not, ite_not]
  refine Option.bind_congr fun p _ => ?_
  split
  · refine Option.bind_congr fun q _ => ?_
    by_cases hq : q.1.read q.2 = 0 <;> simp [hq, truth] <;> rfl
  · rfl

theorem computes_cond {note : Note} {c y n : Expr} {test yes no : List Instr × Value} (isFalse done : String)
    (ht : note.ty = some t) (hp₁ : temps ++ [t] <+: temps₁) (hp₂ : temps₁ <+: temps₂) (hp₃ : temps₂ <+: temps₃)
    (hc : Computes w T (temps ++ [t]) temps₁ test.1 test.2 (c.eval w T .atUse))
    (hy : Computes w T temps₁ temps₂ yes.1 yes.2 (y.eval w T .atUse))
    (hn : Computes w T temps₂ temps₃ no.1 no.2 (n.eval w T .atUse)) :
    Computes w T temps temps₃ (condCode isFalse done test yes no (.var (numbered "tmp" temps.length)))
      (.var (numbered "tmp" temps.length)) ((Expr.cond note c y n).eval w T .atUse) := by
  intro steps all full rest s σ hall hfull hs hagree
  have hle : temps.length + 1 ≤ temps₁.length := by simpa using hp₁.length_le
  have hle₂ := hp₂.length_le
  have hlt : temps.length < temps₃.length := by
    have := hp₃.length_le
    omega
  have hty : (Value.var (numbered "tmp" temps.length)).ty? (T.withTemps all) = some t :=
    ty?_temp (((hp₁.trans hp₂).trans hp₃).trans hall)
  rw [condCode_append] at hs ⊢
  have hs₁ := suffix_tail (suffix_right hs)
  have hs₂ := suffix_tail (suffix_tail (suffix_right hs₁))
  have hfalse := codeAfter_of_suffix hfull hs₂
  have hdone := codeAfter_of_suffix hfull (suffix_tail (suffix_right (suffix_tail hs₂)))
  rw [Expr.eval]
  refine .known ht ?_
  refine .bind (hc ((hp₂.trans hp₃).trans hall) hfull hs hagree) ?_
  rintro ⟨a, s₁⟩ _ ⟨σ₁, rfl, hagree₁, hkeep₁, hheld₁⟩
  have hkeep₁' : Store.KeepsTemps temps.length σ σ₁ := hkeep₁.mono (by simp)
  have htest := hheld₁.now hagree₁
  dsimp only
  split
  · next hz =>
    refine .step (step_jumpIfZero hfalse (htest.trans hz)) ?_
    refine .bind (hn hall hfull (suffix_tail hs₂) hagree₁) ?_
    rintro ⟨b, s₂⟩ _ ⟨σ₂, rfl, hagree₂, hkeep₂, hheld₂⟩
    refine .step (step_copy hty (hheld₂.now hagree₂)) (.step (step_label done) ?_)
    exact .pure (temp_written (Nat.le_refl _) hlt hagree₂ (hkeep₁'.trans (hkeep₂.mono (by omega)) (Nat.le_refl _)))
  · next hz =>
    refine .step (step_jumpIfZero_of_ne (htest.trans_ne hz)) ?_
    refine .bind (hy (hp₃.trans hall) hfull hs₁ hagree₁) ?_
    rintro ⟨b, s₂⟩ _ ⟨σ₂, rfl, hagree₂, hkeep₂, hheld₂⟩
    refine .step (step_copy hty (hheld₂.now hagree₂)) (.step (step_jump hdone) ?_)
    exact .pure (temp_written (Nat.le_refl _) hlt hagree₂ (hkeep₁'.trans (hkeep₂.mono (by omega)) (Nat.le_refl _)))

/-- Arguments are computed one after the other, and all results are held at the end. -/
def ComputesAll (w : World) (T : SymbolTable) (temps temps' : List Ty) (code : List Instr) (vs : List Value)
    (eval : Store → Option (List Result × Store)) : Prop :=
  ∀ ⦃n : Nat⦄ ⦃all : List Ty⦄ ⦃full rest : List Instr⦄ ⦃s σ : Store⦄, temps' <+: all → (labels full).Nodup →
    code ++ rest <:+ full → s.Agrees σ → Runs w (T.withTemps all) full n (code ++ rest, σ) (eval s) fun p c =>
      ∃ σ', c = (rest, σ') ∧ p.2.Agrees σ' ∧ Store.KeepsTemps temps.length σ σ' ∧
        List.Forall₂ (fun r v => r.HeldBy w temps'.length σ' v) p.1 vs

theorem computesAll_nil : ComputesAll w T temps temps [] [] (Expr.evalAll w T .atUse []) := by
  intro n all full rest s σ _ _ _ hagree
  rw [Expr.evalAll]
  exact .pure ⟨σ, rfl, hagree, .refl _ σ, .nil⟩

theorem computesAll_cons {e : Expr} {es : List Expr} {code codes : List Instr} {v : Value} {vs : List Value}
    (hp₁ : temps <+: temps₁) (hp₂ : temps₁ <+: temps₂) (he : Computes w T temps temps₁ code v (e.eval w T .atUse))
    (hes : ComputesAll w T temps₁ temps₂ codes vs (Expr.evalAll w T .atUse es)) :
    ComputesAll w T temps temps₂ (code ++ codes) (v :: vs) (Expr.evalAll w T .atUse (e :: es)) := by
  intro n all full rest s σ hall hfull hs hagree
  rw [List.append_assoc] at hs ⊢
  rw [Expr.evalAll]
  refine .bind (he (hp₂.trans hall) hfull hs hagree) ?_
  rintro ⟨r, s₁⟩ _ ⟨σ₁, rfl, hagree₁, hkeep₁, hheld₁⟩
  refine .bind (hes hall hfull (suffix_right hs) hagree₁) ?_
  rintro ⟨rs, s₂⟩ _ ⟨σ₂, rfl, hagree₂, hkeep₂, hheld₂⟩
  exact .pure ⟨σ₂, rfl, hagree₂, hkeep₁.trans hkeep₂ hp₁.length_le, .cons (hheld₁.mono hkeep₂ hp₂.length_le) hheld₂⟩

theorem read_of_heldBy {n : Nat} {s σ : Store} (hagree : s.Agrees σ) {rs : List Result} {vs : List Value}
    (h : List.Forall₂ (fun r v => r.HeldBy w n σ v) rs vs) : vs.map (Value.read w σ) = rs.map (Result.read s) := by
  induction h with
  | nil => rfl
  | cons hr _ ih => rw [List.map_cons, List.map_cons, hr.now hagree, ih]

theorem computes_call (hT : T.TempFree) {note : Note} {f : String} {args : List Expr} {code : List Instr}
    {vs : List Value} (hp : temps <+: temps₁) (ht : note.ty = some t)
    (hargs : ComputesAll w T temps temps₁ code vs (Expr.evalAll w T .atUse args)) :
    Computes w T temps (temps₁ ++ [t]) (code ++ [.call f vs (.var (numbered "tmp" temps₁.length))])
      (.var (numbered "tmp" temps₁.length)) ((Expr.call note f args).eval w T .atUse) := by
  intro n all full rest s σ hall hfull hs hagree
  rw [List.append_assoc] at hs ⊢
  rw [Expr.eval]
  refine .known ht ?_
  refine .bind (hargs ((List.prefix_append temps₁ [t]).trans hall) hfull hs hagree) ?_
  rintro ⟨rs, s₁⟩ _ ⟨σ₁, rfl, hagree₁, hkeep₁, hheld⟩
  obtain ⟨σ₂, hcall, hagree₂, hkeep₂⟩ := w.answer_agrees hT all f (rs.map (Result.read s₁)) hagree₁
  refine .step (step_call (ty?_temp hall) (read_of_heldBy hagree₁ hheld) hcall) ?_
  exact .pure (temp_written hp.length_le (by simp) hagree₂ (hkeep₁.trans (hkeep₂ _) (Nat.le_refl _)))

end Pieces

end Ir

open Ir

/-! ## Lowering -/

section Lower

variable {T : SymbolTable} {E : Fault → Prop}

mutual
/-- A well-typed expression is lowered to code that computes it, if no variable bears the name of a temporary. -/
theorem Expr.lower_computes (hT : T.IsSound) (hfree : T.TempFree) : ∀ (e : Expr) {t : Ty} {temps : List Ty}
    {st : LoweringState}, e.HasTy T t → Made T temps st →
    Ensures e.lower st E fun r st' => ∃ temps', temps <+: temps' ∧ Made T temps' st' ∧
      ∀ w, Computes w T temps temps' r.1 r.2 (e.eval w T .atUse)
  | .int _ v, _, temps, _, _, hst => by
    rw [Expr.lower]
    refine .pure ⟨temps, List.prefix_refl temps, hst, fun w => ?_⟩
    exact computes_nil fun _ => ⟨rfl, nofun⟩
  | .long _ v, _, temps, _, _, hst => by
    rw [Expr.lower]
    refine .pure ⟨temps, List.prefix_refl temps, hst, fun w => ?_⟩
    exact computes_nil fun _ => ⟨rfl, nofun⟩
  | .str _ text, _, temps, _, _, hst => by
    rw [Expr.lower]
    refine .pure ⟨temps, List.prefix_refl temps, hst, fun w => ?_⟩
    exact computes_nil fun _ => ⟨rfl, nofun⟩
  | .var _ x, _, temps, _, ⟨⟨s, hs, hf, _⟩, _⟩, hst => by
    rw [Expr.lower]
    have hx : T.HasVar x s.ty := ⟨s, hs, hf, rfl⟩
    refine .pure ⟨temps, List.prefix_refl temps, hst, fun w => ?_⟩
    exact computes_nil fun _ => ⟨rfl, (hfree.hasVar hx).1⟩
  | .call note f args, t, temps, st, he, hst => by
    rw [Expr.lower]
    have hv := he.isValue hT
    obtain ⟨⟨s, params, ret, hs, hf, hty, hn, hargs⟩, ht⟩ := he
    refine .bind (Expr.lowerAll_computes hT hfree params args hargs hst) ?_
    rintro ⟨code, values⟩ st₁ ⟨temps₁, hp₁, hst₁, hcode⟩
    refine .bind (Expr.recordedTy_of_ty ht st₁) ?_
    rintro ty _ ⟨rfl, rfl⟩
    refine .bind (Lowering.temp_made hst₁ hv) ?_
    rintro _ st₂ ⟨rfl, hst₂⟩
    exact .pure ⟨_, hp₁.trans (List.prefix_append temps₁ _), hst₂, fun w => computes_call hfree hp₁ ht (hcode w)⟩
  | .unary note op a, t, temps, st, he, hst => by
    rw [Expr.lower]
    obtain ⟨ta, ha, _⟩ := he.unary hT
    refine .bind (a.lower_computes hT hfree ha hst) ?_
    rintro ⟨code, src⟩ st₁ ⟨temps₁, hp₁, hst₁, hcode⟩
    refine .bind (Expr.recordedTy_of_ty he.2 st₁) ?_
    rintro ty _ ⟨rfl, rfl⟩
    refine .bind (Lowering.temp_made hst₁ (he.isValue hT)) ?_
    rintro _ st₂ ⟨rfl, hst₂⟩
    exact .pure ⟨_, hp₁.trans (List.prefix_append temps₁ _), hst₂, fun w => computes_unary hp₁ he.2 (hcode w)⟩
  | .binary note .logicalAnd l r, t, temps, st, ⟨⟨hl, hr, _⟩, _⟩, hst => by
    rw [Expr.lower]
    obtain ⟨tl, hl⟩ := hl.hasTy hT
    obtain ⟨tr, hr⟩ := hr.hasTy hT
    refine .bind (Lowering.label_made hst "and_false") fun isFalse st₁ hst₁ => ?_
    refine .bind (Lowering.label_made hst₁ "and_end") fun done st₂ hst₂ => ?_
    refine .bind (Lowering.temp_made hst₂ rfl) ?_
    rintro _ st₃ ⟨rfl, hst₃⟩
    refine .bind (l.lower_computes hT hfree hl hst₃) ?_
    rintro left st₄ ⟨temps₄, hp₄, hst₄, hleft⟩
    refine .bind (r.lower_computes hT hfree hr hst₄) ?_
    rintro right st₅ ⟨temps₅, hp₅, hst₅, hright⟩
    exact .pure ⟨temps₅, ((List.prefix_append temps _).trans hp₄).trans hp₅, hst₅,
      fun w => computes_and isFalse done hp₄ hp₅ (hleft w) (hright w)⟩
  | .binary note .logicalOr l r, t, temps, st, ⟨⟨hl, hr, _⟩, _⟩, hst => by
    rw [Expr.lower]
    obtain ⟨tl, hl⟩ := hl.hasTy hT
    obtain ⟨tr, hr⟩ := hr.hasTy hT
    refine .bind (Lowering.label_made hst "or_true") fun isTrue st₁ hst₁ => ?_
    refine .bind (Lowering.label_made hst₁ "or_end") fun done st₂ hst₂ => ?_
    refine .bind (Lowering.temp_made hst₂ rfl) ?_
    rintro _ st₃ ⟨rfl, hst₃⟩
    refine .bind (l.lower_computes hT hfree hl hst₃) ?_
    rintro left st₄ ⟨temps₄, hp₄, hst₄, hleft⟩
    refine .bind (r.lower_computes hT hfree hr hst₄) ?_
    rintro right st₅ ⟨temps₅, hp₅, hst₅, hright⟩
    exact .pure ⟨temps₅, ((List.prefix_append temps _).trans hp₄).trans hp₅, hst₅,
      fun w => computes_or isTrue done hp₄ hp₅ (hleft w) (hright w)⟩
  | .binary note (.strict op) l r, t, temps, st, he, hst => by
    rw [Expr.lower]
    obtain ⟨u, hl, hr, _⟩ := he.strict
    refine .bind (l.lower_computes hT hfree hl hst) ?_
    rintro ⟨codeL, left⟩ st₁ ⟨temps₁, hp₁, hst₁, hleft⟩
    refine .bind (r.lower_computes hT hfree hr hst₁) ?_
    rintro ⟨codeR, right⟩ st₂ ⟨temps₂, hp₂, hst₂, hright⟩
    refine .bind (Expr.recordedTy_of_ty he.2 st₂) ?_
    rintro ty _ ⟨rfl, rfl⟩
    refine .bind (Lowering.temp_made hst₂ (he.isValue hT)) ?_
    rintro _ st₃ ⟨rfl, hst₃⟩
    exact .pure ⟨_, (hp₁.trans hp₂).trans (List.prefix_append temps₂ _), hst₃,
      fun w => computes_strict hp₁ hp₂ he.2 (hleft w) (hright w)⟩
  | .assign _ (.var _ x) value, t, temps, st, ⟨⟨_, ⟨s, hs, hf, hn⟩, hr, u, hlu, hru, hu⟩, ht⟩, hst => by
    rw [Expr.lower]
    cases hn.symm.trans hlu
    refine .bind (value.lower_computes hT hfree ⟨hr, hru⟩ hst) ?_
    rintro ⟨code, src⟩ st₁ ⟨temps₁, hp₁, hst₁, hcode⟩
    exact .pure ⟨temps₁, hp₁, hst₁, fun w => computes_assign hfree ⟨s, hs, hf, rfl⟩ hu (hcode w)⟩
  | .cond note c y n, t, temps, st, he, hst => by
    rw [Expr.lower]
    have hv := he.isValue hT
    obtain ⟨⟨hc, hy, hn, u, hyu, hnu, _⟩, ht⟩ := he
    obtain ⟨tc, hc⟩ := hc.hasTy hT
    refine .bind (Lowering.label_made hst "cond_else") fun isFalse st₁ hst₁ => ?_
    refine .bind (Lowering.label_made hst₁ "cond_end") fun done st₂ hst₂ => ?_
    refine .bind (Expr.recordedTy_of_ty ht st₂) ?_
    rintro ty _ ⟨rfl, rfl⟩
    refine .bind (Lowering.temp_made hst₂ hv) ?_
    rintro _ st₃ ⟨rfl, hst₃⟩
    refine .bind (c.lower_computes hT hfree hc hst₃) ?_
    rintro test st₄ ⟨temps₄, hp₄, hst₄, htest⟩
    refine .bind (y.lower_computes hT hfree ⟨hy, hyu⟩ hst₄) ?_
    rintro yes st₅ ⟨temps₅, hp₅, hst₅, hyes⟩
    refine .bind (n.lower_computes hT hfree ⟨hn, hnu⟩ hst₅) ?_
    rintro no st₆ ⟨temps₆, hp₆, hst₆, hno⟩
    exact .pure ⟨temps₆, (((List.prefix_append temps _).trans hp₄).trans hp₅).trans hp₆, hst₆,
      fun w => computes_cond isFalse done ht hp₄ hp₅ hp₆ (htest w) (hyes w) (hno w)⟩
  | .range note l r, t, temps, st, ⟨⟨hl, hr, u, hi, hlu, hru, hu⟩, ht⟩, hst => by
    rw [Expr.lower]
    cases hu.symm.trans ht
    refine .bind (l.lower_computes hT hfree ⟨hl, hlu⟩ hst) ?_
    rintro ⟨codeL, first⟩ st₁ ⟨temps₁, hp₁, hst₁, hfirst⟩
    refine .bind (r.lower_computes hT hfree ⟨hr, hru⟩ hst₁) ?_
    rintro ⟨codeR, last⟩ st₂ ⟨temps₂, hp₂, hst₂, hlast⟩
    refine .bind (Expr.recordedTy_of_ty ht st₂) ?_
    rintro ty _ ⟨rfl, rfl⟩
    refine .bind (Lowering.temp_made hst₂ (Ty.isFunction_of_isInteger hi)) ?_
    rintro _ st₃ ⟨rfl, hst₃⟩
    exact .pure ⟨_, (hp₁.trans hp₂).trans (List.prefix_append temps₂ _), hst₃,
      fun w => computes_range hp₁ hp₂ ht hi (hfirst w) (hlast w)⟩
  | .cast note target a, t, temps, st, ⟨⟨ha, hn, hwidth⟩, ht⟩, hst => by
    rw [Expr.lower]
    cases hn.symm.trans ht
    obtain ⟨ta, hta⟩ := ha.hasTy hT
    refine .bind (a.lower_computes hT hfree hta hst) ?_
    rintro ⟨code, src⟩ st₁ ⟨temps₁, hp₁, hst₁, hcode⟩
    refine .bind (Expr.recordedTy_of_ty hta.2 st₁) ?_
    rintro ty _ ⟨rfl, rfl⟩
    have hp := hp₁.trans (List.prefix_append temps₁ [target])
    rcases hwidth with ⟨hty, rfl⟩ | ⟨hty, rfl⟩
    · cases hty.symm.trans hta.2
      refine .bind (Lowering.temp_made hst₁ rfl) ?_
      rintro _ st₂ ⟨rfl, hst₂⟩
      exact .pure ⟨_, hp, hst₂, fun w => computes_cast hp₁ (.inl rfl) (hcode w)⟩
    · cases hty.symm.trans hta.2
      refine .bind (Lowering.temp_made hst₁ rfl) ?_
      rintro _ st₂ ⟨rfl, hst₂⟩
      exact .pure ⟨_, hp, hst₂, fun w => computes_cast hp₁ (.inr rfl) (hcode w)⟩

theorem Expr.lowerAll_computes (hT : T.IsSound) (hfree : T.TempFree) : ∀ (ts : List Ty) (es : List Expr)
    {temps : List Ty} {st : LoweringState}, Expr.AllWellTyped T ts es → Made T temps st →
    Ensures (Expr.lowerAll es) st E fun r st' => ∃ temps', temps <+: temps' ∧ Made T temps' st' ∧
      ∀ w, ComputesAll w T temps temps' r.1 r.2 (Expr.evalAll w T .atUse es)
  | [], [], temps, st, _, hst => by
    rw [Expr.lowerAll]
    exact .pure ⟨temps, List.prefix_refl temps, hst, fun _ => computesAll_nil⟩
  | t :: ts, e :: es, temps, st, ⟨he, hes⟩, hst => by
    rw [Expr.lowerAll]
    refine .bind (e.lower_computes hT hfree he hst) ?_
    rintro ⟨code, value⟩ st₁ ⟨temps₁, hp₁, hst₁, hcode⟩
    refine .bind (Expr.lowerAll_computes hT hfree ts es hes hst₁) ?_
    rintro ⟨codes, values⟩ st₂ ⟨temps₂, hp₂, hst₂, hcodes⟩
    exact .pure ⟨temps₂, hp₁.trans hp₂, hst₂, fun w => computesAll_cons hp₁ hp₂ (hcode w) (hcodes w)⟩
end

end Lower

end Khel
