import Khel.Proofs.Ir.Computes
import Khel.Proofs.Typing.CheckedStmt

/-!
# Initial values

A constant, negated and complemented any number of times, can stand as the initial value of a variable. For a static
variable it is worked out when the program is compiled, in 64 bits throughout. For a variable of one call it is worked
out when the program runs, and every node in the width of its own type. The two agree, unless the constant is narrow,
the variable wide, and what was worked out in 64 bits does not fit the narrow width.

* `Expr.ComesTo`: what a checked expression comes to at run time, wherever it stands.
* `Expr.check_literal`: the value of such an expression is what is left of its constant in the width of its type.
* `VarDecl.Records`, `VarDecl.Holds`: what a variable starts with, if it is static and if it is not.
* `VarDecl.initial_eq_iff`: when both are the same.
-/

namespace Khel

open Ir

/-- The type of a constant that is negated and complemented any number of times. -/
def Expr.literalTy? : Expr → Option Ty
  | .int .. => some .int32
  | .long .. => some .int64
  | .unary _ .negate a | .unary _ .complement a => a.literalTy?
  | _ => none

/-! ## Widths -/

section Wrap

variable {t : Ty}

theorem Ty.bits_dvd (t : Ty) : (2 ^ t.bits : Nat) ∣ 2 ^ 64 := by
  cases t <;> simp only [Ty.bits] <;> decide

/-- What is cut off by a wider type is cut off anyway. -/
theorem Ty.wrap_bmod (t : Ty) (a : Int) : t.wrap (a.bmod (2 ^ 64)) = t.wrap a := by
  rw [Ty.wrap, Ty.wrap, Int.bmod_bmod_of_dvd t.bits_dvd]

@[simp] theorem Ty.wrap_wrap (t : Ty) (a : Int) : t.wrap (t.wrap a) = t.wrap a := Int.bmod_bmod

/-- Negation does not depend on what has been cut off before. -/
theorem Ty.wrap_neg (t : Ty) (a : Int) : t.wrap (-t.wrap a) = t.wrap (-a) := by
  simp [Ty.wrap]

theorem Ty.wrap_complement (t : Ty) (a : Int) : t.wrap (-t.wrap a - 1) = t.wrap (-a - 1) := by
  have hswap : ∀ b : Int, -b - 1 = -1 - b := fun b => by omega
  rw [hswap, hswap, Ty.wrap, Ty.wrap, Int.sub_bmod_bmod, Ty.wrap]

theorem UnaryOp.apply_negate (t : Ty) (v : Int64) :
    UnaryOp.negate.apply t (t.wrap v.toInt) = t.wrap (-v).toInt := by
  rw [UnaryOp.apply, Ty.wrap_neg, Int64.toInt_neg, Ty.wrap_bmod]

theorem UnaryOp.apply_complement (t : Ty) (v : Int64) :
    UnaryOp.complement.apply t (t.wrap v.toInt) = t.wrap (~~~v).toInt := by
  rw [UnaryOp.apply, Ty.wrap_complement, Int64.toInt_not, Ty.wrap_bmod]

theorem Ty.wrap_int (v : Int32) : Ty.int32.wrap v.toInt64.toInt = v.toInt := by
  rw [Int32.toInt_toInt64]
  exact Int32.toInt_bmod v

theorem Ty.wrap_long (v : Int64) : Ty.int64.wrap v.toInt = v.toInt := Int64.toInt_bmod v

/-- A constant that was cut down to a width, as an integer. -/
theorem Ty.toInt_truncate (ht : t.isInteger = true) (v : Int64) : (t.truncate v).toInt = t.wrap v.toInt := by
  cases t with
  | int32 => rw [Ty.truncate, Int32.toInt_toInt64, Int64.toInt_toInt32, Ty.wrap, Ty.bits]
  | int64 => exact (Ty.wrap_long v).symm
  | string | fn _ _ => cases ht

/-- A value that does not fit the narrow width loses something there. -/
theorem Ty.wrap_int32_eq_iff (a : Int) : Ty.int32.wrap a = a ↔ -2 ^ 31 ≤ a ∧ a < 2 ^ 31 := by
  rw [Ty.wrap, Ty.bits, Int.bmod_eq_iff (by decide)]
  omega

/-- Cutting a constant down at once or first to the width of its type comes to the same, unless a constant of the
narrow type that does not fit is widened. -/
theorem Ty.wrap_eq_iff {u : Ty} (ht : t.isInteger = true) (hu : u.isInteger = true) (v : Int64) :
    u.wrap v.toInt = u.wrap (t.wrap v.toInt) ↔
      (t = .int32 → u = .int64 → -2 ^ 31 ≤ v.toInt ∧ v.toInt < 2 ^ 31) := by
  have hlong := Ty.wrap_long v
  cases t with
  | int64 => simp [hlong]
  | int32 =>
    cases u with
    | int32 => simp
    | int64 =>
      have hwide : Ty.int64.wrap (Ty.int32.wrap v.toInt) = Ty.int32.wrap v.toInt := by
        rw [← Ty.toInt_truncate rfl v, Ty.wrap_long]
      rw [hlong, hwide, eq_comm, Ty.wrap_int32_eq_iff]
      simp
    | string | fn _ _ => cases hu
  | string | fn _ _ => cases ht

end Wrap

/-! ## Run time -/

/-- Wherever the code stands and whatever the store is, it comes out behind its end, where the value holds `a`. The
temporaries `temps` have been made by then. -/
def Ir.Produces (T : SymbolTable) (temps : List Ty) (code : List Instr) (value : Value) (a : Int) : Prop :=
  ∀ w all full rest σ, temps <+: all →
    ∃ σ', Steps w (T.withTemps all) full (code ++ rest, σ) (rest, σ') ∧ value.read w σ' = a

/-- A checked expression of type `t` that comes to the value `a`, wherever it stands. -/
structure Expr.ComesTo (t : Ty) (a : Int) (e : Expr) : Prop where
  ty : e.ty = some t
  lower : ∀ {T temps st}, Made T temps st → Ensures e.lower st (fun _ => False) fun r st' =>
    ∃ temps', temps <+: temps' ∧ Made T temps' st' ∧ Produces T temps' r.1 r.2 a

section ComesTo

variable {t : Ty} {a b : Int} {e : Expr}

/-- An expression that needs no code. -/
theorem comesTo_nil {v : Value} (ht : e.ty = some t) (he : e.lower = pure ([], v)) (hv : ∀ w σ, v.read w σ = a) :
    e.ComesTo t a := by
  refine ⟨ht, fun {T temps st} hst => ?_⟩
  rw [he]
  exact .pure ⟨temps, List.prefix_refl temps, hst, fun w all full rest σ _ => ⟨σ, .refl, hv w σ⟩⟩

/-- One more instruction, which writes a temporary. -/
theorem Ir.Produces.temp {T : SymbolTable} {temps : List Ty} {code : List Instr} {value : Value} {last : Instr}
    (h : Produces T temps code value a)
    (hlast : ∀ w S full rest σ, value.read w σ = a → (Value.var (numbered "tmp" temps.length)).ty? S = some t →
      Step w S full (last :: rest, σ) (rest, Function.update σ (numbered "tmp" temps.length) b)) :
    Produces T (temps ++ [t]) (code ++ [last]) (.var (numbered "tmp" temps.length)) b := by
  intro w all full rest σ hall
  obtain ⟨σ', hsteps, hread⟩ := h w all full (last :: rest) σ ((List.prefix_append temps [t]).trans hall)
  refine ⟨Function.update σ' (numbered "tmp" temps.length) b, ?_, Function.update_self ..⟩
  rw [List.append_assoc]
  exact hsteps.tail (hlast w _ full rest σ' hread (ty?_temp hall))

theorem Expr.ComesTo.unary (note : Note) (h : e.ComesTo t a) (ht : t.isFunction = false) (op : UnaryOp) :
    (Expr.unary { note with ty := some t } op e).ComesTo t (op.apply t a) := by
  refine ⟨rfl, fun {T temps st} hst => ?_⟩
  rw [Expr.lower]
  refine .bind (h.lower hst) ?_
  rintro ⟨code, src⟩ st₁ ⟨temps₁, hp₁, hst₁, hcode⟩
  refine .bind (Expr.recordedTy_of_ty rfl st₁) ?_
  rintro ty _ ⟨rfl, rfl⟩
  refine .bind (Lowering.temp_made hst₁ ht) ?_
  rintro _ st₂ ⟨rfl, hst₂⟩
  refine .pure ⟨_, hp₁.trans (List.prefix_append temps₁ _), hst₂, hcode.temp ?_⟩
  exact fun w S full rest σ hread hty => step_unary hty op hread

/-- A change of width. -/
theorem Expr.ComesTo.mkCast {u : Ty} (h : e.ComesTo t a) (ht : t.isInteger = true) (hu : u.isInteger = true)
    (hne : t ≠ u) : (Expr.mkCast u e).ComesTo u (u.wrap a) := by
  refine ⟨rfl, fun {T temps st} hst => ?_⟩
  rw [Expr.mkCast, Expr.lower]
  refine .bind (h.lower hst) ?_
  rintro ⟨code, src⟩ st₁ ⟨temps₁, hp₁, hst₁, hcode⟩
  refine .bind (Expr.recordedTy_of_ty h.ty st₁) ?_
  rintro ty _ ⟨rfl, rfl⟩
  have hp := hp₁.trans (List.prefix_append temps₁ [u])
  cases ty with
  | int32 =>
    cases u with
    | int64 =>
      refine .bind (Lowering.temp_made hst₁ rfl) ?_
      rintro _ st₂ ⟨rfl, hst₂⟩
      exact .pure ⟨_, hp, hst₂, hcode.temp fun w S full rest σ hread hty => step_signExtend hty hread⟩
    | int32 => exact (hne rfl).elim
    | string | fn _ _ => cases hu
  | int64 =>
    cases u with
    | int32 =>
      refine .bind (Lowering.temp_made hst₁ rfl) ?_
      rintro _ st₂ ⟨rfl, hst₂⟩
      exact .pure ⟨_, hp, hst₂, hcode.temp fun w S full rest σ hread hty => step_truncate hty hread⟩
    | int64 => exact (hne rfl).elim
    | string | fn _ _ => cases hu
  | string | fn _ _ => cases ht

/-- A conversion between integers succeeds. -/
theorem Expr.ComesTo.convert {u : Ty} (h : e.ComesTo t (t.wrap a)) (ht : t.isInteger = true)
    (hu : u.isInteger = true) : ∃ e', e.convert u = .ok e' ∧ e'.ComesTo u (u.wrap (t.wrap a)) := by
  unfold Expr.convert
  rw [h.ty]
  by_cases hne : t = u
  · subst hne
    exact ⟨e, if_pos rfl, by rwa [Ty.wrap_wrap]⟩
  · refine ⟨.mkCast u e, ?_, h.mkCast ht hu hne⟩
    dsimp only
    rw [if_neg hne, ht, hu]
    rfl

end ComesTo

/-! ## Constants -/

theorem Expr.isInteger_literalTy? : ∀ {e : Expr} {t : Ty}, e.literalTy? = some t → t.isInteger = true := by
  intro e t h
  fun_induction Expr.literalTy? e with
  | case1 | case2 =>
    cases h
    rfl
  | case3 note a ih | case4 note a ih => exact ih h
  | case5 => cases h

theorem Expr.check_unary {T : SymbolTable} {a a' : Expr} {t : Ty} (h : a.check T = .ok a') (hty : a'.ty = some t)
    (ht : t.isInteger = true) (note : Note) {op : UnaryOp} (hop : op ≠ .logicalNot) :
    (Expr.unary note op a).check T = .ok (.unary { note with ty := some t } op a') := by
  have hrequire : a'.requireInteger = .ok () := by
    rw [requireInteger, hty]
    exact if_pos ht
  rw [Expr.check, h]
  cases op with
  | logicalNot => exact (hop rfl).elim
  | negate | complement =>
    change (liftM a'.requireInteger >>= fun _ => liftM a'.knownTy >>= _ : Except CompileError Expr) = _
    rw [hrequire, Expr.knownTy_of_ty hty]
    rfl

/-- Checked under any symbols, a constant keeps its type, and at run time it comes to what is left of its value in the
width of the type. -/
theorem Expr.check_literal {e : Expr} {t : Ty} (h : e.literalTy? = some t) : ∃ v e', e.constant? = some v ∧
    (∀ T, e.check T = .ok e') ∧ e'.ComesTo t (t.wrap v.toInt) := by
  have ht := Expr.isInteger_literalTy? h
  have hfn := Ty.isFunction_of_isInteger ht
  fun_induction Expr.literalTy? e with
  | case1 note v =>
    cases h
    exact ⟨_, _, rfl, fun _ => rfl, comesTo_nil rfl rfl fun w σ => (Ty.wrap_int v).symm⟩
  | case2 note v =>
    cases h
    exact ⟨_, _, rfl, fun _ => rfl, comesTo_nil rfl rfl fun w σ => (Ty.wrap_long v).symm⟩
  | case3 note a ih =>
    obtain ⟨v, a', hv, hcheck, ha⟩ := ih h
    refine ⟨-v, _, ?_, fun T => Expr.check_unary (hcheck T) ha.ty ht note nofun, ?_⟩
    · rw [Expr.constant?, hv, Option.map_some]
    · rw [← UnaryOp.apply_negate]
      exact ha.unary note hfn .negate
  | case4 note a ih =>
    obtain ⟨v, a', hv, hcheck, ha⟩ := ih h
    refine ⟨~~~v, _, ?_, fun T => Expr.check_unary (hcheck T) ha.ty ht note nofun, ?_⟩
    · rw [Expr.constant?, hv, Option.map_some]
    · rw [← UnaryOp.apply_complement]
      exact ha.unary note hfn .complement
  | case5 => cases h

/-! ## Variables -/

/-- Kept for the whole run, the variable is recorded with the constant `c`: in a block always, and at the top level
unless the declaration is refused, which can only happen if there was another one before. -/
structure VarDecl.Records (d : VarDecl) (c : Int64) : Prop where
  inBlock : ∀ T, Ensures { d with storage := some .static }.checkLocal T (fun _ => False) fun _ T' =>
    T'.get? d.ident.name = some ⟨d.type.ty, .static (.value c) false⟩
  atTop : ∀ T, Ensures (Decl.check (.var d)) T (fun _ => (T.get? d.ident.name).isSome = true) fun _ T' =>
    ∃ isGlobal, T'.get? d.ident.name = some ⟨d.type.ty, .static (.value c) isGlobal⟩

/-- As a variable of one call, the variable holds `a` once the code of its declaration has run, wherever the code
stands, if it still has its type then. -/
def VarDecl.Holds (d : VarDecl) (a : Int) : Prop :=
  ∀ T₀, Ensures { d with storage := none }.checkLocal T₀ (fun _ => False) fun d' T₁ =>
    T₁.get? d.ident.name = some ⟨d.type.ty, .automatic⟩ ∧
    ∀ T temps st, Made T temps st → Ensures d'.lower st (fun _ => False) fun code st' =>
      ∃ temps', temps <+: temps' ∧ Made T temps' st' ∧
        ∀ w all full rest σ, temps' <+: all → (Value.var d.ident.name).ty? (T.withTemps all) = some d.type.ty →
          ∃ σ', Steps w (T.withTemps all) full (code ++ rest, σ) (rest, σ') ∧ σ' d.ident.name = a

section Variables

variable {d : VarDecl} {e : Expr} {t : Ty} {v : Int64}

/-- A constant of integer type can be converted to any other. -/
theorem Checking.exprAs_literal {E : CompileError → Prop} {u : Ty} (he : e.literalTy? = some t)
    (hv : e.constant? = some v) (hu : u.isInteger = true) (T : SymbolTable) :
    Ensures (Checking.exprAs u e) T E fun e' T' => T' = T ∧ e'.ComesTo u (u.wrap (t.wrap v.toInt)) := by
  obtain ⟨v', e', hv', hcheck, he'⟩ := Expr.check_literal he
  cases hv.symm.trans hv'
  obtain ⟨e'', hconvert, he''⟩ := he'.convert (Expr.isInteger_literalTy? he) hu
  unfold Checking.exprAs Checking.expr
  refine .bind (R := fun r T' => r = e' ∧ T' = T) (.get_bind ?_) ?_
  · rw [hcheck]
    exact ⟨rfl, rfl⟩
  · rintro _ _ ⟨rfl, rfl⟩
    rw [hconvert]
    exact ⟨rfl, he''⟩

theorem Checking.staticInit_literal {E : CompileError → Prop} {u : Ty} (name : String) (he : e.literalTy? = some t)
    (hv : e.constant? = some v) (hu : u.isInteger = true) (T : SymbolTable) :
    Ensures (Checking.staticInit name u e) T E fun r T' => T' = T ∧ r.2 = u.truncate v := by
  unfold Checking.staticInit
  rw [hv]
  refine .bind (Checking.exprAs_literal he hv hu T) ?_
  rintro e' _ ⟨rfl, _⟩
  exact .pure ⟨rfl, rfl⟩

/-- A first value goes into the symbol, unless there was one before. -/
theorem VarDecl.symbol_value (d : VarDecl) (c : Int64) (prior : Option Symbol) :
    Yields (d.symbol (.value c) prior) (fun _ => prior.isSome = true) fun s =>
      ∃ isGlobal, s = ⟨d.type.ty, .static (.value c) isGlobal⟩ := by
  unfold VarDecl.symbol
  dsimp only
  split
  · exact ⟨_, rfl⟩
  · next before wasGlobal =>
    split
    · exact rfl
    · cases before with
      | value _ => exact rfl
      | tentative | absent => exact ⟨_, rfl⟩
  · exact rfl

theorem VarDecl.records_literal (hinit : d.init = some e) (he : e.literalTy? = some t) (hv : e.constant? = some v)
    (hd : d.type.ty.isInteger = true) : d.Records (d.type.ty.truncate v) := by
  constructor
  · intro T
    unfold VarDecl.checkLocal VarDecl.checkStatic
    simp only [hinit]
    refine .bind (Checking.staticInit_literal d.ident.name he hv hd T) ?_
    rintro ⟨e', c⟩ _ ⟨rfl, rfl⟩
    exact (Table.get?_set ..).trans (if_pos rfl)
  · intro T
    rw [Decl.check, hinit]
    refine .bind (Checking.staticInit_literal d.ident.name he hv hd T) ?_
    rintro ⟨e', c⟩ T ⟨rfl, rfl⟩
    have hsymbol := d.symbol_value (d.type.ty.truncate v) (Table.get? T d.ident.name)
    refine .get_bind ?_
    cases hs : d.symbol (.value (d.type.ty.truncate v)) (Table.get? T d.ident.name) with
    | error r =>
      rw [hs] at hsymbol
      exact hsymbol
    | ok s =>
      obtain ⟨isGlobal, rfl⟩ := hsymbol.of_ok hs
      exact ⟨isGlobal, (Table.get?_set ..).trans (if_pos rfl)⟩

theorem VarDecl.holds_literal (hinit : d.init = some e) (he : e.literalTy? = some t) (hv : e.constant? = some v)
    (hd : d.type.ty.isInteger = true) : d.Holds (d.type.ty.wrap (t.wrap v.toInt)) := by
  intro T₀
  unfold VarDecl.checkLocal VarDecl.checkAutomatic
  simp only [hinit]
  refine .bind (R := fun _ T₁ => T₁ = Table.set T₀ d.ident.name ⟨d.type.ty, .automatic⟩) rfl ?_
  rintro _ _ rfl
  refine .bind (Checking.exprAs_literal he hv hd _) ?_
  rintro e' _ ⟨rfl, he'⟩
  refine .pure ⟨(Table.get?_set ..).trans (if_pos rfl), fun T temps st hst => ?_⟩
  change Ensures (e'.lower >>= _) st _ _
  refine .bind (he'.lower hst) ?_
  rintro ⟨code, src⟩ st₁ ⟨temps₁, hp₁, hst₁, hcode⟩
  refine .pure ⟨temps₁, hp₁, hst₁, fun w all full rest σ hall hty => ?_⟩
  obtain ⟨σ₁, hsteps, hread⟩ := hcode w all full (.copy src (.var d.ident.name) :: rest) σ hall
  refine ⟨Function.update σ₁ d.ident.name (d.type.ty.wrap (t.wrap v.toInt)), ?_, Function.update_self ..⟩
  rw [List.append_assoc]
  refine hsteps.tail ?_
  rw [← Ty.wrap_wrap d.type.ty]
  exact step_copy hty hread

/-- The constant of a static variable is what the variable would hold at run time, unless a narrow constant is meant for
a wide variable and does not fit the narrow width when it is worked out in 64 bits. -/
theorem VarDecl.initial_eq_iff (hinit : d.init = some e) (he : e.literalTy? = some t)
    (hd : d.type.ty.isInteger = true) : ∃ v c a, e.constant? = some v ∧ d.Records c ∧ d.Holds a ∧
      (c.toInt = a ↔ (t = .int32 → d.type.ty = .int64 → -2 ^ 31 ≤ v.toInt ∧ v.toInt < 2 ^ 31)) := by
  obtain ⟨v, _, hv, _⟩ := Expr.check_literal he
  refine ⟨v, _, _, hv, VarDecl.records_literal hinit he hv hd, VarDecl.holds_literal hinit he hv hd, ?_⟩
  rw [Ty.toInt_truncate hd, Ty.wrap_eq_iff (Expr.isInteger_literalTy? he) hd]

end Variables

/-- A wide variable that starts with the number after `n`, made by negating the complement of the narrow `n`. -/
def wideSuccessor (n : Int32) : VarDecl where
  ident := ⟨"x", .nowhere⟩
  type := .long
  init := some (.unary {} .negate (.unary {} .complement (.int {} n)))
  storage := none

/-- The number after the last but one still fits the narrow width. -/
theorem wideSuccessor_agrees : ∃ c a, (wideSuccessor 2147483646).Records c ∧ (wideSuccessor 2147483646).Holds a ∧
    c.toInt = a := by
  obtain ⟨v, c, a, hv, hc, ha, hiff⟩ := VarDecl.initial_eq_iff (d := wideSuccessor 2147483646) rfl rfl rfl
  cases hv
  exact ⟨c, a, hc, ha, hiff.2 fun _ _ => by decide⟩

/-- The number after the last one does not: it is recorded as it is, but at run time it is the least number. -/
theorem wideSuccessor_differs : ¬ ∀ (d : VarDecl) (e : Expr) (t : Ty) (c : Int64) (a : Int), d.init = some e →
    e.literalTy? = some t → d.type.ty.isInteger = true → d.Records c → d.Holds a → c.toInt = a := by
  intro hall
  have hrecords : (wideSuccessor 2147483647).Records 2147483648 := VarDecl.records_literal rfl rfl rfl rfl
  have hholds : (wideSuccessor 2147483647).Holds (Ty.int64.wrap (Ty.int32.wrap 2147483648)) :=
    VarDecl.holds_literal (v := 2147483648) rfl rfl rfl rfl
  exact absurd (hall _ _ _ _ _ rfl rfl rfl hrecords hholds) (by decide)

end Khel
