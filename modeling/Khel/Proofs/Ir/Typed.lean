import Khel.Proofs.Ir.Temps

/-!
# Lowered code is typed

Intermediate code has typing rules of its own: an operation works on operands of one type, and a call passes what its
callee takes. Lowering a well-typed program cannot fail, and its code obeys the rules.

* `Ir.Instr.Typed`: the rules.
* `Expr.lower_typed`, `Stmt.lower_typed`: an expression and a statement are lowered to typed code.
* `Program.lower_typed`: so is a program.
-/

namespace Khel

namespace Ir

/-! ## Rules -/

/-- The operands of an instruction fit together, in a function that returns `ret`. -/
def Instr.Typed (T : SymbolTable) (temps : List Ty) (ret : Ty) : Instr → Prop
  | .ret v => v.Typed T temps ret ∨ v = .int 0
  | .signExtend src dst => src.Typed T temps .int32 ∧ dst.Typed T temps .int64
  | .truncate src dst => src.Typed T temps .int64 ∧ dst.Typed T temps .int32
  | .unary .logicalNot src dst => (∃ t, src.Typed T temps t) ∧ dst.Typed T temps .int32
  | .unary _ src dst => ∃ t, t.isInteger = true ∧ src.Typed T temps t ∧ dst.Typed T temps t
  | .binary (.arith _) l r dst =>
    ∃ t, t.isInteger = true ∧ l.Typed T temps t ∧ r.Typed T temps t ∧ dst.Typed T temps t
  | .binary (.compare _) l r dst => (∃ t, l.Typed T temps t ∧ r.Typed T temps t) ∧ dst.Typed T temps .int32
  | .copy src dst => ∃ t, src.Typed T temps t ∧ dst.Typed T temps t
  | .jump _ | .label _ => True
  | .jumpIfZero test _ | .jumpIfNotZero test _ => ∃ t, test.Typed T temps t
  | .call f args dst => ∃ params t, T.HasFunction f (.fn params t) ∧
    List.Forall₂ (Value.Typed T temps) params args ∧ dst.Typed T temps t

/-- All instructions of a piece of code are typed. -/
def CodeTyped (T : SymbolTable) (temps : List Ty) (ret : Ty) (code : List Instr) : Prop :=
  ∀ i ∈ code, i.Typed T temps ret

section Code

variable {T : SymbolTable} {temps temps' : List Ty} {ret t : Ty} {i : Instr} {a b : List Instr}

@[simp] theorem codeTyped_nil : CodeTyped T temps ret [] := by simp [CodeTyped]

@[simp] theorem codeTyped_cons :
    CodeTyped T temps ret (i :: a) ↔ i.Typed T temps ret ∧ CodeTyped T temps ret a := List.forall_mem_cons

@[simp] theorem codeTyped_append :
    CodeTyped T temps ret (a ++ b) ↔ CodeTyped T temps ret a ∧ CodeTyped T temps ret b := List.forall_mem_append

/-- More temporaries do no harm. -/
theorem Instr.Typed.mono (hp : temps <+: temps') (hv : ∀ t ∈ temps', t.isFunction = false) :
    ∀ {i : Instr}, i.Typed T temps ret → i.Typed T temps' ret
  | .ret _, h => h.imp_left (.mono hp hv)
  | .signExtend .., ⟨hs, hd⟩ | .truncate .., ⟨hs, hd⟩ => ⟨hs.mono hp hv, hd.mono hp hv⟩
  | .unary .logicalNot _ _, ⟨⟨t, hs⟩, hd⟩ => ⟨⟨t, hs.mono hp hv⟩, hd.mono hp hv⟩
  | .unary .negate _ _, ⟨t, hi, hs, hd⟩ | .unary .complement _ _, ⟨t, hi, hs, hd⟩ =>
    ⟨t, hi, hs.mono hp hv, hd.mono hp hv⟩
  | .binary (.arith _) _ _ _, ⟨t, hi, hl, hr, hd⟩ => ⟨t, hi, hl.mono hp hv, hr.mono hp hv, hd.mono hp hv⟩
  | .binary (.compare _) _ _ _, ⟨⟨t, hl, hr⟩, hd⟩ => ⟨⟨t, hl.mono hp hv, hr.mono hp hv⟩, hd.mono hp hv⟩
  | .copy .., ⟨t, hs, hd⟩ => ⟨t, hs.mono hp hv, hd.mono hp hv⟩
  | .jump _, _ | .label _, _ => trivial
  | .jumpIfZero .., ⟨t, h⟩ | .jumpIfNotZero .., ⟨t, h⟩ => ⟨t, h.mono hp hv⟩
  | .call .., ⟨params, t, hf, ha, hd⟩ => ⟨params, t, hf, ha.imp fun _ _ h => h.mono hp hv, hd.mono hp hv⟩

theorem CodeTyped.mono (hp : temps <+: temps') (hv : ∀ t ∈ temps', t.isFunction = false)
    (h : CodeTyped T temps ret a) : CodeTyped T temps' ret a := fun i hi => (h i hi).mono hp hv

theorem Value.typed_int (v : Int32) : Value.Typed T temps .int32 (.int v) := ⟨.int32, ⟨rfl, rfl⟩, fun _ => rfl⟩

theorem Value.typed_long (v : Int64) : Value.Typed T temps .int64 (.long v) := ⟨.int64, ⟨rfl, rfl⟩, fun _ => rfl⟩

/-- A small constant has the type that it was made for, if that is an integer type. -/
theorem Value.typed_ofTy (v : Int32) {t u : Ty} (ht : t.isInteger = true) (h : T.TempFree → u = t) :
    Value.Typed T temps t (.ofTy v u) := by
  cases u with
  | int64 => exact ⟨.int64, ⟨rfl, rfl⟩, h⟩
  | int32 => exact ⟨.int32, ⟨rfl, rfl⟩, h⟩
  | string | fn _ _ =>
    refine ⟨.int32, ⟨rfl, rfl⟩, fun hfree => ?_⟩
    cases h hfree
    cases ht

end Code

/-! ## Layouts -/

section Layouts

variable {T : SymbolTable} {temps : List Ty} {ret t : Ty} {start loop isFalse isTrue done : String}
  {left right test first last : List Instr × Value} {yes no : List Instr × Value} {body other : List Instr}
  {dst var one : Value}

theorem codeTyped_andCode (hl : CodeTyped T temps ret left.1) (hr : CodeTyped T temps ret right.1)
    (hlv : ∃ t, left.2.Typed T temps t) (hrv : ∃ t, right.2.Typed T temps t) (hd : dst.Typed T temps .int32) :
    CodeTyped T temps ret (andCode isFalse done left right dst) := by
  have hone : (Instr.copy (.int 1) dst).Typed T temps ret := ⟨.int32, Value.typed_int 1, hd⟩
  have hzero : (Instr.copy (.int 0) dst).Typed T temps ret := ⟨.int32, Value.typed_int 0, hd⟩
  simp only [andCode, codeTyped_append, codeTyped_cons, codeTyped_nil, and_true]
  exact ⟨⟨hl, hlv, hr⟩, hrv, hone, trivial, trivial, hzero, trivial⟩

theorem codeTyped_orCode (hl : CodeTyped T temps ret left.1) (hr : CodeTyped T temps ret right.1)
    (hlv : ∃ t, left.2.Typed T temps t) (hrv : ∃ t, right.2.Typed T temps t) (hd : dst.Typed T temps .int32) :
    CodeTyped T temps ret (orCode isTrue done left right dst) := by
  have hone : (Instr.copy (.int 1) dst).Typed T temps ret := ⟨.int32, Value.typed_int 1, hd⟩
  have hzero : (Instr.copy (.int 0) dst).Typed T temps ret := ⟨.int32, Value.typed_int 0, hd⟩
  simp only [orCode, codeTyped_append, codeTyped_cons, codeTyped_nil, and_true]
  exact ⟨⟨hl, hlv, hr⟩, hrv, hzero, trivial, trivial, hone, trivial⟩

theorem codeTyped_condCode (hc : CodeTyped T temps ret test.1) (hy : CodeTyped T temps ret yes.1)
    (hn : CodeTyped T temps ret no.1) (hcv : ∃ t, test.2.Typed T temps t) (hyv : yes.2.Typed T temps t)
    (hnv : no.2.Typed T temps t) (hd : dst.Typed T temps t) :
    CodeTyped T temps ret (condCode isFalse done test yes no dst) := by
  have hyes : (Instr.copy yes.2 dst).Typed T temps ret := ⟨t, hyv, hd⟩
  have hno : (Instr.copy no.2 dst).Typed T temps ret := ⟨t, hnv, hd⟩
  simp only [condCode, codeTyped_append, codeTyped_cons, codeTyped_nil, and_true]
  exact ⟨⟨⟨hc, hcv, hy⟩, hyes, trivial, trivial, hn⟩, hno, trivial⟩

theorem codeTyped_ifThenCode (hc : CodeTyped T temps ret test.1) (hcv : ∃ t, test.2.Typed T temps t)
    (hb : CodeTyped T temps ret body) : CodeTyped T temps ret (ifThenCode done test body) := by
  simp only [ifThenCode, codeTyped_append, codeTyped_cons, codeTyped_nil, and_true]
  exact ⟨⟨hc, hcv, hb⟩, trivial⟩

theorem codeTyped_ifElseCode (hc : CodeTyped T temps ret test.1) (hcv : ∃ t, test.2.Typed T temps t)
    (hb : CodeTyped T temps ret body) (ho : CodeTyped T temps ret other) :
    CodeTyped T temps ret (ifElseCode isFalse done test body other) := by
  simp only [ifElseCode, codeTyped_append, codeTyped_cons, codeTyped_nil, and_true]
  exact ⟨⟨⟨hc, hcv, hb⟩, trivial, trivial, ho⟩, trivial⟩

theorem codeTyped_whileCode (hc : CodeTyped T temps ret test.1) (hcv : ∃ t, test.2.Typed T temps t)
    (hb : CodeTyped T temps ret body) : CodeTyped T temps ret (whileCode start loop test body) := by
  simp only [whileCode, codeTyped_append, codeTyped_cons, codeTyped_nil, and_true]
  exact ⟨⟨⟨trivial, hc⟩, hcv, hb⟩, trivial, trivial, trivial⟩

theorem codeTyped_rangeCode (hf : CodeTyped T temps ret first.1) (hl : CodeTyped T temps ret last.1)
    (hb : CodeTyped T temps ret body) (hi : t.isInteger = true) (hfv : first.2.Typed T temps t)
    (hlv : last.2.Typed T temps t) (hv : var.Typed T temps t) (h1 : one.Typed T temps t)
    (hd : dst.Typed T temps .int32) :
    CodeTyped T temps ret (rangeCode start loop var one dst first last body) := by
  have hcopy : (Instr.copy first.2 var).Typed T temps ret := ⟨t, hfv, hv⟩
  have htest : (Instr.binary (.compare .le) var last.2 dst).Typed T temps ret := ⟨⟨t, hv, hlv⟩, hd⟩
  have hstep : (Instr.binary (.arith .add) var one var).Typed T temps ret := ⟨t, hi, hv, h1, hv⟩
  simp only [rangeCode, codeTyped_append, codeTyped_cons, codeTyped_nil, and_true]
  exact ⟨⟨⟨hf, hcopy, trivial, hl⟩, htest, ⟨.int32, hd⟩, hb⟩, trivial, hstep, trivial, trivial⟩

end Layouts

/-! ## What a step of lowering leaves -/

/-- Lowering made more temporaries, and with them the code is typed. -/
structure Lowered (T : SymbolTable) (ret : Ty) (temps : List Ty) (code : List Instr) (st : LoweringState)
    (temps' : List Ty) : Prop where
  more : temps <+: temps'
  made : Made T temps' st
  typed : CodeTyped T temps' ret code

section Lowered

variable {T : SymbolTable} {ret : Ty} {temps temps₁ temps₂ : List Ty} {code more : List Instr}
  {st st₁ st₂ : LoweringState}

/-- Nothing was lowered. -/
theorem Lowered.nil (h : Made T temps st) : Lowered T ret temps [] st temps :=
  ⟨List.prefix_refl temps, h, codeTyped_nil⟩

theorem Lowered.append (h : Lowered T ret temps code st₁ temps₁) (h' : Lowered T ret temps₁ more st₂ temps₂) :
    Lowered T ret temps (code ++ more) st₂ temps₂ :=
  ⟨h.more.trans h'.more, h'.made, codeTyped_append.2 ⟨h.typed.mono h'.more h'.made.values, h'.typed⟩⟩

/-- The pieces of lowered code may stand in another layout. -/
theorem Lowered.layout (h : Lowered T ret temps code st temps₁) (hm : CodeTyped T temps₁ ret code →
    CodeTyped T temps₁ ret more) : Lowered T ret temps more st temps₁ := ⟨h.more, h.made, hm h.typed⟩

/-- A temporary was made, and nothing was lowered. -/
theorem Lowered.temp {t : Ty} (h : Made T (temps ++ [t]) st) : Lowered T ret temps [] st (temps ++ [t]) :=
  ⟨List.prefix_append temps [t], h, codeTyped_nil⟩

/-- A temporary that was made before. -/
theorem Lowered.typed_temp {n : Nat} {t : Ty} (h : Lowered T ret temps code st temps₁) (hn : temps[n]? = some t) :
    Value.Typed T temps₁ t (.var (numbered "tmp" n)) := by
  have hn₁ : temps₁[n]? = some t := by
    obtain ⟨rest, rfl⟩ := h.more
    rw [List.getElem?_append_left (List.getElem?_eq_some_iff.1 hn).1]
    exact hn
  exact Value.typed_temp hn₁ (h.made.values t (List.mem_of_getElem? hn₁))

end Lowered

end Ir

open Ir

section Lower

variable {T : SymbolTable} {E : Fault → Prop} {ret : Ty}

theorem Expr.recordedTy_of_ty {e : Expr} {t : Ty} (h : e.ty = some t) (st : LoweringState) :
    Ensures e.recordedTy st E fun t' st' => t' = t ∧ st' = st := by
  unfold Expr.recordedTy
  rw [h]
  exact .pure ⟨rfl, rfl⟩

theorem Ir.Lowering.loopId_of_isSome (statement : String) {id : Option String} (h : id.isSome = true)
    (st : LoweringState) : Ensures (Lowering.loopId statement id) st E fun i st' => id = some i ∧ st' = st := by
  cases id with
  | none => cases h
  | some i => exact .pure ⟨rfl, rfl⟩

/-! ## Expressions -/

/-- The rule of a unary operator. -/
theorem Expr.HasTy.unary {note : Note} {op : UnaryOp} {a : Expr} {t : Ty} (hT : T.IsSound)
    (h : (Expr.unary note op a).HasTy T t) : ∃ ta, a.HasTy T ta ∧ ∀ {temps : List Ty} {ret : Ty} {src dst : Value},
      src.Typed T temps ta → dst.Typed T temps t → (Instr.unary op src dst).Typed T temps ret := by
  obtain ⟨hw, ht⟩ := h
  cases op with
  | logicalNot =>
    obtain ⟨ha, hn⟩ := hw
    obtain ⟨ta, hta⟩ := ha.hasTy hT
    cases hn.symm.trans ht
    exact ⟨ta, hta, fun hs hd => ⟨⟨ta, hs⟩, hd⟩⟩
  | negate | complement =>
    obtain ⟨ha, u, hi, hau, hn⟩ := hw
    cases hn.symm.trans ht
    exact ⟨t, ⟨ha, hau⟩, fun hs hd => ⟨t, hi, hs, hd⟩⟩

/-- The rule of an operator with two operands that are always computed. -/
theorem Expr.HasTy.strict {note : Note} {op : StrictOp} {l r : Expr} {t : Ty}
    (h : (Expr.binary note (.strict op) l r).HasTy T t) :
    ∃ u, l.HasTy T u ∧ r.HasTy T u ∧ ∀ {temps : List Ty} {ret : Ty} {left right dst : Value},
      left.Typed T temps u → right.Typed T temps u → dst.Typed T temps t →
      (Instr.binary op left right dst).Typed T temps ret := by
  obtain ⟨hw, ht⟩ := h
  cases op with
  | arith op =>
    obtain ⟨hl, hr, u, hi, hlu, hru, hn⟩ := hw
    cases hn.symm.trans ht
    exact ⟨t, ⟨hl, hlu⟩, ⟨hr, hru⟩, fun h₁ h₂ h₃ => ⟨t, hi, h₁, h₂, h₃⟩⟩
  | compare op =>
    obtain ⟨hl, hr, ⟨u, hlu, hru⟩, hn⟩ := hw
    cases hn.symm.trans ht
    exact ⟨u, ⟨hl, hlu⟩, ⟨hr, hru⟩, fun h₁ h₂ h₃ => ⟨⟨u, h₁, h₂⟩, h₃⟩⟩

/-- The last step of an operation: its result goes to a new temporary. -/
theorem Ir.Lowered.result {temps temps₁ : List Ty} {code : List Instr} {st : LoweringState} {t : Ty}
    (h : Lowered T ret temps code st temps₁) (ht : t.isFunction = false) (last : Value → List Instr)
    (hlast : ∀ temps₂ dst, temps₁ <+: temps₂ → (∀ u ∈ temps₂, u.isFunction = false) → dst.Typed T temps₂ t →
      CodeTyped T temps₂ ret (last dst)) :
    Ensures (Lowering.temp t >>= fun dst => pure (code ++ last dst, dst)) st E fun r st' =>
      ∃ temps', Lowered T ret temps r.1 st' temps' ∧ r.2.Typed T temps' t := by
  refine .bind (Lowering.temp_made h.made ht) fun dst st' hdst => ?_
  obtain ⟨rfl, hst'⟩ := hdst
  have hnew : Lowered T ret temps₁ [] st' (temps₁ ++ [t]) := .temp hst'
  have hdst : Value.Typed T (temps₁ ++ [t]) t (.var (numbered "tmp" temps₁.length)) :=
    Value.typed_temp (by simp) ht
  exact .pure ⟨_, h.append (hnew.layout fun _ => hlast _ _ hnew.more hst'.values hdst), hdst⟩

mutual
/-- A well-typed expression is lowered to typed code, and to a value of its type. -/
theorem Expr.lower_typed (hT : T.IsSound) (ret : Ty) : ∀ (e : Expr) {t : Ty} {temps : List Ty} {st : LoweringState},
    e.HasTy T t → Made T temps st →
    Ensures e.lower st E fun r st' => ∃ temps', Lowered T ret temps r.1 st' temps' ∧ r.2.Typed T temps' t
  | .int _ v, _, temps, _, ⟨hw, ht⟩, hst => by
    rw [Expr.lower]
    cases hw.symm.trans ht
    exact .pure ⟨temps, .nil hst, Value.typed_int v⟩
  | .long _ v, _, temps, _, ⟨hw, ht⟩, hst => by
    rw [Expr.lower]
    cases hw.symm.trans ht
    exact .pure ⟨temps, .nil hst, Value.typed_long v⟩
  | .str .., _, temps, _, ⟨hw, ht⟩, hst => by
    rw [Expr.lower]
    cases hw.symm.trans ht
    exact .pure ⟨temps, .nil hst, .string, ⟨rfl, rfl⟩, fun _ => rfl⟩
  | .var _ x, _, temps, _, ⟨⟨s, hs, hf, hn⟩, ht⟩, hst => by
    rw [Expr.lower]
    cases hn.symm.trans ht
    exact .pure ⟨temps, .nil hst, Value.typed_var hT hst.values ⟨s, hs, hf, rfl⟩⟩
  | .call note f args, t, temps, st, he, hst => by
    rw [Expr.lower]
    have hv := he.isValue hT
    obtain ⟨⟨s, params, ret', hs, hf, hty, hn, hargs⟩, ht⟩ := he
    cases hn.symm.trans ht
    refine .bind (Expr.lowerAll_typed hT ret params args hargs hst) ?_
    rintro ⟨code, values⟩ st₁ ⟨temps₁, h₁, hvalues⟩
    refine .bind (Expr.recordedTy_of_ty ht st₁) ?_
    rintro ty _ ⟨rfl, rfl⟩
    refine h₁.result hv (fun dst => [.call f values dst]) fun temps₂ dst hp hv₂ hdst => ?_
    exact codeTyped_cons.2 ⟨⟨params, _, ⟨s, hs, hf, hty⟩, hvalues.imp fun _ _ h => h.mono hp hv₂, hdst⟩, codeTyped_nil⟩
  | .unary note op a, t, temps, st, he, hst => by
    rw [Expr.lower]
    obtain ⟨ta, ha, hrule⟩ := he.unary hT
    refine .bind (a.lower_typed hT ret ha hst) ?_
    rintro ⟨code, src⟩ st₁ ⟨temps₁, h₁, hsrc⟩
    refine .bind (Expr.recordedTy_of_ty he.2 st₁) ?_
    rintro ty _ ⟨rfl, rfl⟩
    refine h₁.result (he.isValue hT) (fun dst => [.unary op src dst]) fun temps₂ dst hp hv₂ hdst => ?_
    exact codeTyped_cons.2 ⟨hrule (hsrc.mono hp hv₂) hdst, codeTyped_nil⟩
  | .binary note .logicalAnd l r, t, temps, st, ⟨⟨hl, hr, hn⟩, ht⟩, hst => by
    rw [Expr.lower]
    cases hn.symm.trans ht
    obtain ⟨tl, hl⟩ := hl.hasTy hT
    obtain ⟨tr, hr⟩ := hr.hasTy hT
    refine .bind (Lowering.label_made hst "and_false") fun isFalse st₁ hst₁ => ?_
    refine .bind (Lowering.label_made hst₁ "and_end") fun done st₂ hst₂ => ?_
    refine .bind (Lowering.temp_made hst₂ rfl) ?_
    rintro _ st₃ ⟨rfl, hst₃⟩
    refine .bind (l.lower_typed hT ret hl hst₃) ?_
    rintro ⟨codeL, left⟩ st₄ ⟨temps₄, h₄, hleft⟩
    refine .bind (r.lower_typed hT ret hr h₄.made) ?_
    rintro ⟨codeR, right⟩ st₅ ⟨temps₅, h₅, hright⟩
    have hall := h₄.append h₅
    have hdst : Value.Typed T temps₅ .int32 (.var (numbered "tmp" temps.length)) := hall.typed_temp (by simp)
    refine .pure ⟨temps₅, (Lowered.temp hst₃).append (hall.layout fun hcode => ?_), hdst⟩
    obtain ⟨hcodeL, hcodeR⟩ := codeTyped_append.1 hcode
    exact codeTyped_andCode hcodeL hcodeR ⟨tl, hleft.mono h₅.more h₅.made.values⟩ ⟨tr, hright⟩ hdst
  | .binary note .logicalOr l r, t, temps, st, ⟨⟨hl, hr, hn⟩, ht⟩, hst => by
    rw [Expr.lower]
    cases hn.symm.trans ht
    obtain ⟨tl, hl⟩ := hl.hasTy hT
    obtain ⟨tr, hr⟩ := hr.hasTy hT
    refine .bind (Lowering.label_made hst "or_true") fun isTrue st₁ hst₁ => ?_
    refine .bind (Lowering.label_made hst₁ "or_end") fun done st₂ hst₂ => ?_
    refine .bind (Lowering.temp_made hst₂ rfl) ?_
    rintro _ st₃ ⟨rfl, hst₃⟩
    refine .bind (l.lower_typed hT ret hl hst₃) ?_
    rintro ⟨codeL, left⟩ st₄ ⟨temps₄, h₄, hleft⟩
    refine .bind (r.lower_typed hT ret hr h₄.made) ?_
    rintro ⟨codeR, right⟩ st₅ ⟨temps₅, h₅, hright⟩
    have hall := h₄.append h₅
    have hdst : Value.Typed T temps₅ .int32 (.var (numbered "tmp" temps.length)) := hall.typed_temp (by simp)
    refine .pure ⟨temps₅, (Lowered.temp hst₃).append (hall.layout fun hcode => ?_), hdst⟩
    obtain ⟨hcodeL, hcodeR⟩ := codeTyped_append.1 hcode
    exact codeTyped_orCode hcodeL hcodeR ⟨tl, hleft.mono h₅.more h₅.made.values⟩ ⟨tr, hright⟩ hdst
  | .binary note (.strict op) l r, t, temps, st, he, hst => by
    rw [Expr.lower]
    obtain ⟨u, hl, hr, hrule⟩ := he.strict
    refine .bind (l.lower_typed hT ret hl hst) ?_
    rintro ⟨codeL, left⟩ st₁ ⟨temps₁, h₁, hleft⟩
    refine .bind (r.lower_typed hT ret hr h₁.made) ?_
    rintro ⟨codeR, right⟩ st₂ ⟨temps₂, h₂, hright⟩
    refine .bind (Expr.recordedTy_of_ty he.2 st₂) ?_
    rintro ty _ ⟨rfl, rfl⟩
    refine (h₁.append h₂).result (he.isValue hT) (fun dst => [.binary op left right dst]) ?_
    intro temps₃ dst hp hv hdst
    have hleft' := (hleft.mono h₂.more h₂.made.values).mono hp hv
    exact codeTyped_cons.2 ⟨hrule hleft' (hright.mono hp hv) hdst, codeTyped_nil⟩
  | .assign _ (.var _ x) value, t, temps, st, ⟨⟨_, ⟨s, hs, hf, hn⟩, hr, u, hlu, hru, hu⟩, ht⟩, hst => by
    rw [Expr.lower]
    cases hu.symm.trans ht
    cases hn.symm.trans hlu
    refine .bind (value.lower_typed hT ret ⟨hr, hru⟩ hst) ?_
    rintro ⟨code, src⟩ st₁ ⟨temps₁, h₁, hsrc⟩
    have hx : Value.Typed T temps₁ s.ty (.var x) := Value.typed_var hT h₁.made.values ⟨s, hs, hf, rfl⟩
    have hcopy : (Instr.copy src (.var x)).Typed T temps₁ ret := ⟨s.ty, hsrc, hx⟩
    exact .pure ⟨temps₁, h₁.layout fun hcode => by simp [hcode, hcopy], hx⟩
  | .cond note c y n, t, temps, st, he, hst => by
    rw [Expr.lower]
    have hv := he.isValue hT
    obtain ⟨⟨hc, hy, hn, u, hyu, hnu, hu⟩, ht⟩ := he
    cases hu.symm.trans ht
    obtain ⟨tc, hc⟩ := hc.hasTy hT
    refine .bind (Lowering.label_made hst "cond_else") fun isFalse st₁ hst₁ => ?_
    refine .bind (Lowering.label_made hst₁ "cond_end") fun done st₂ hst₂ => ?_
    refine .bind (Expr.recordedTy_of_ty ht st₂) ?_
    rintro ty _ ⟨rfl, rfl⟩
    refine .bind (Lowering.temp_made hst₂ hv) ?_
    rintro _ st₃ ⟨rfl, hst₃⟩
    refine .bind (c.lower_typed hT ret hc hst₃) ?_
    rintro ⟨codeC, test⟩ st₄ ⟨temps₄, h₄, htest⟩
    refine .bind (y.lower_typed hT ret ⟨hy, hyu⟩ h₄.made) ?_
    rintro ⟨codeY, yes⟩ st₅ ⟨temps₅, h₅, hyes⟩
    refine .bind (n.lower_typed hT ret ⟨hn, hnu⟩ h₅.made) ?_
    rintro ⟨codeN, no⟩ st₆ ⟨temps₆, h₆, hno⟩
    have hall := (h₄.append h₅).append h₆
    have hdst : Value.Typed T temps₆ ty (.var (numbered "tmp" temps.length)) := hall.typed_temp (by simp)
    refine .pure ⟨temps₆, (Lowered.temp hst₃).append (hall.layout fun hcode => ?_), hdst⟩
    obtain ⟨⟨hcodeC, hcodeY⟩, hcodeN⟩ := (codeTyped_append.1 hcode).imp_left codeTyped_append.1
    have htest' := (htest.mono h₅.more h₅.made.values).mono h₆.more h₆.made.values
    exact codeTyped_condCode hcodeC hcodeY hcodeN ⟨tc, htest'⟩ (hyes.mono h₆.more h₆.made.values) hno hdst
  | .range note l r, t, temps, st, he, hst => by
    rw [Expr.lower]
    obtain ⟨⟨hl, hr, u, hi, hlu, hru, hu⟩, ht⟩ := he
    cases hu.symm.trans ht
    refine .bind (l.lower_typed hT ret ⟨hl, hlu⟩ hst) ?_
    rintro ⟨codeL, first⟩ st₁ ⟨temps₁, h₁, hfirst⟩
    refine .bind (r.lower_typed hT ret ⟨hr, hru⟩ h₁.made) ?_
    rintro ⟨codeR, last⟩ st₂ ⟨temps₂, h₂, hlast⟩
    refine .bind (Expr.recordedTy_of_ty ht st₂) ?_
    rintro ty _ ⟨rfl, rfl⟩
    refine (h₁.append h₂).result (Ty.isFunction_of_isInteger hi) (fun dst => [.binary (.arith .sub) last first dst,
      .binary (.arith .add) dst (.ofTy 1 ty) dst]) ?_
    intro temps₃ dst hp hv hdst
    have hfirst' := (hfirst.mono h₂.more h₂.made.values).mono hp hv
    refine codeTyped_cons.2 ⟨⟨_, hi, hlast.mono hp hv, hfirst', hdst⟩, codeTyped_cons.2 ⟨?_, codeTyped_nil⟩⟩
    exact ⟨_, hi, hdst, Value.typed_ofTy 1 hi fun _ => rfl, hdst⟩
  | .cast note target a, t, temps, st, ⟨⟨ha, hn, hwidth⟩, ht⟩, hst => by
    rw [Expr.lower]
    cases hn.symm.trans ht
    obtain ⟨ta, hta⟩ := ha.hasTy hT
    refine .bind (a.lower_typed hT ret hta hst) ?_
    rintro ⟨code, src⟩ st₁ ⟨temps₁, h₁, hsrc⟩
    refine .bind (Expr.recordedTy_of_ty hta.2 st₁) ?_
    rintro ty _ ⟨rfl, rfl⟩
    rcases hwidth with ⟨hty, rfl⟩ | ⟨hty, rfl⟩
    · cases hty.symm.trans hta.2
      refine h₁.result rfl (fun dst => [.signExtend src dst]) fun temps₂ dst hp hv hdst => ?_
      exact codeTyped_cons.2 ⟨⟨hsrc.mono hp hv, hdst⟩, codeTyped_nil⟩
    · cases hty.symm.trans hta.2
      refine h₁.result rfl (fun dst => [.truncate src dst]) fun temps₂ dst hp hv hdst => ?_
      exact codeTyped_cons.2 ⟨⟨hsrc.mono hp hv, hdst⟩, codeTyped_nil⟩

theorem Expr.lowerAll_typed (hT : T.IsSound) (ret : Ty) : ∀ (ts : List Ty) (es : List Expr) {temps : List Ty}
    {st : LoweringState}, Expr.AllWellTyped T ts es → Made T temps st →
    Ensures (Expr.lowerAll es) st E fun r st' =>
      ∃ temps', Lowered T ret temps r.1 st' temps' ∧ List.Forall₂ (Value.Typed T temps') ts r.2
  | [], [], temps, st, _, hst => by
    rw [Expr.lowerAll]
    exact .pure ⟨temps, .nil hst, .nil⟩
  | t :: ts, e :: es, temps, st, ⟨he, hes⟩, hst => by
    rw [Expr.lowerAll]
    refine .bind (e.lower_typed hT ret he hst) ?_
    rintro ⟨code, value⟩ st₁ ⟨temps₁, h₁, hv⟩
    refine .bind (Expr.lowerAll_typed hT ret ts es hes h₁.made) ?_
    rintro ⟨codes, values⟩ st₂ ⟨temps₂, h₂, hvs⟩
    exact .pure ⟨temps₂, h₁.append h₂, .cons (hv.mono h₂.more h₂.made.values) hvs⟩
end

/-! ## Statements -/

theorem VarDecl.lower_typed (hT : T.IsSound) (ret : Ty) {d : VarDecl} {temps : List Ty} {st : LoweringState}
    (hd : d.WellTyped T) (hst : Made T temps st) :
    Ensures d.lower st E fun code st' => ∃ temps', Lowered T ret temps code st' temps' := by
  unfold VarDecl.lower
  split
  · next e _ hi =>
    refine .bind (e.lower_typed hT ret (hd.2 e hi) hst) ?_
    rintro ⟨code, src⟩ st₁ ⟨temps₁, h₁, hsrc⟩
    have hcopy : (Instr.copy src (.var d.ident.name)).Typed T temps₁ ret :=
      ⟨_, hsrc, Value.typed_var hT h₁.made.values hd.1⟩
    exact .pure ⟨temps₁, h₁.layout fun hcode => by simp [hcode, hcopy]⟩
  · exact .pure ⟨temps, .nil hst⟩

/-- A loop finds its variable, and the type it finds is the right one unless names got lost. -/
theorem Ident.loopTy_typed (hT : T.IsSound) {ident : Ident} {t : Ty} {temps : List Ty} {st : LoweringState}
    (hx : T.HasVar ident.name t) (hst : Made T temps st) :
    Ensures ident.loopTy st E fun u st' => st' = st ∧ (T.TempFree → u = t) := by
  obtain ⟨u, ⟨hu, _⟩, hfree⟩ := Value.typed_var hT hst.values hx
  obtain ⟨s, hs, rfl⟩ := Option.map_eq_some_iff.1 hu
  refine .get_bind ?_
  rw [hst.symbols, hs]
  exact .pure ⟨rfl, hfree⟩

mutual
/-- A well-typed statement is lowered to typed code. -/
theorem Stmt.lower_typed (hT : T.IsSound) : ∀ (s : Stmt) {current : Option String} {temps : List Ty}
    {st : LoweringState}, s.WellTyped T ret → s.Labelled current → Made T temps st →
    Ensures s.lower st E fun code st' => ∃ temps', Lowered T ret temps code st' temps'
  | .eval e, _, temps, st, hw, _, hst => by
    rw [Stmt.lower]
    obtain ⟨t, he⟩ := Expr.WellTyped.hasTy hT hw
    refine .bind (e.lower_typed hT ret he hst) ?_
    rintro ⟨code, _⟩ st₁ ⟨temps₁, h₁, _⟩
    exact .pure ⟨temps₁, h₁⟩
  | .ret none _, _, temps, st, _, _, hst => by
    rw [Stmt.lower]
    exact .pure ⟨temps, (Lowered.nil hst).layout fun _ => codeTyped_cons.2 ⟨.inr rfl, codeTyped_nil⟩⟩
  | .ret (some e) _, _, temps, st, hw, _, hst => by
    rw [Stmt.lower]
    refine .bind (e.lower_typed hT ret (hw e rfl) hst) ?_
    rintro ⟨code, value⟩ st₁ ⟨temps₁, h₁, hv⟩
    have hret : (Instr.ret value).Typed T temps₁ ret := .inl hv
    exact .pure ⟨temps₁, h₁.layout fun hcode => by simp [hcode, hret]⟩
  | .ifThen c s, _, temps, st, ⟨hc, hs⟩, hl, hst => by
    rw [Stmt.lower]
    obtain ⟨t, hc⟩ := hc.hasTy hT
    refine .bind (Lowering.label_made hst "if_end") fun done st₁ hst₁ => ?_
    refine .bind (c.lower_typed hT ret hc hst₁) ?_
    rintro ⟨codeC, test⟩ st₂ ⟨temps₂, h₂, htest⟩
    refine .bind (s.lower_typed hT hs hl h₂.made) ?_
    rintro yes st₃ ⟨temps₃, h₃⟩
    refine .pure ⟨temps₃, (h₂.append h₃).layout fun hcode => ?_⟩
    obtain ⟨hcodeC, hyes⟩ := codeTyped_append.1 hcode
    exact codeTyped_ifThenCode hcodeC ⟨t, htest.mono h₃.more h₃.made.values⟩ hyes
  | .ifElse c s s', _, temps, st, ⟨hc, hs, hs'⟩, ⟨hl, hl'⟩, hst => by
    rw [Stmt.lower]
    obtain ⟨t, hc⟩ := hc.hasTy hT
    refine .bind (Lowering.label_made hst "if_else") fun isFalse st₁ hst₁ => ?_
    refine .bind (Lowering.label_made hst₁ "if_end") fun done st₂ hst₂ => ?_
    refine .bind (c.lower_typed hT ret hc hst₂) ?_
    rintro ⟨codeC, test⟩ st₃ ⟨temps₃, h₃, htest⟩
    refine .bind (s.lower_typed hT hs hl h₃.made) ?_
    rintro yes st₄ ⟨temps₄, h₄⟩
    refine .bind (s'.lower_typed hT hs' hl' h₄.made) ?_
    rintro no st₅ ⟨temps₅, h₅⟩
    refine .pure ⟨temps₅, ((h₃.append h₄).append h₅).layout fun hcode => ?_⟩
    obtain ⟨⟨hcodeC, hyes⟩, hno⟩ := (codeTyped_append.1 hcode).imp_left codeTyped_append.1
    have htest' := (htest.mono h₄.more h₄.made.values).mono h₅.more h₅.made.values
    exact codeTyped_ifElseCode hcodeC ⟨t, htest'⟩ hyes hno
  | .block items, _, temps, st, hw, hl, hst => by
    rw [Stmt.lower]
    exact lowerItems_typed hT items hw hl hst
  | .whileLoop c body id, _, temps, st, ⟨hc, hb⟩, ⟨hid, hl⟩, hst => by
    rw [Stmt.lower]
    obtain ⟨t, hc⟩ := hc.hasTy hT
    refine .bind (Lowering.loopId_of_isSome "while" hid st) ?_
    rintro i _ ⟨rfl, rfl⟩
    refine .bind (Lowering.label_made hst "while_start") fun start st₁ hst₁ => ?_
    refine .bind (c.lower_typed hT ret hc hst₁) ?_
    rintro ⟨codeC, test⟩ st₂ ⟨temps₂, h₂, htest⟩
    refine .bind (lowerItems_typed hT body hb hl h₂.made) ?_
    rintro code st₃ ⟨temps₃, h₃⟩
    refine .pure ⟨temps₃, (h₂.append h₃).layout fun hcode => ?_⟩
    obtain ⟨hcodeC, hbody⟩ := codeTyped_append.1 hcode
    exact codeTyped_whileCode hcodeC ⟨t, htest.mono h₃.more h₃.made.values⟩ hbody
  | .loop var control body id, _, temps, st, ⟨hc, hvar, hb⟩, ⟨hid, hl⟩, hst => by
    rw [Stmt.lower]
    refine .bind (Lowering.loopId_of_isSome "loop" hid st) ?_
    rintro i _ ⟨rfl, rfl⟩
    refine .bind (Lowering.label_made hst "loop_start") fun start st₁ hst₁ => ?_
    split
    · next ident _ l r =>
      obtain ⟨t, hx, hty⟩ := hvar ident rfl
      obtain ⟨hlw, hrw, u, hi, hlu, hru, hu⟩ := hc
      cases hu.symm.trans (hty rfl)
      refine .bind (ident.loopTy_typed hT hx hst₁) ?_
      rintro ty _ ⟨rfl, hone⟩
      refine .bind (l.lower_typed hT ret ⟨hlw, hlu⟩ hst₁) ?_
      rintro ⟨codeL, first⟩ st₂ ⟨temps₂, h₂, hfirst⟩
      refine .bind (r.lower_typed hT ret ⟨hrw, hru⟩ h₂.made) ?_
      rintro ⟨codeR, last⟩ st₃ ⟨temps₃, h₃, hlast⟩
      refine .bind (Lowering.temp_made h₃.made rfl) ?_
      rintro _ st₄ ⟨rfl, hst₄⟩
      have h₄ : Lowered T ret temps₃ [] st₄ (temps₃ ++ [.int32]) := .temp hst₄
      refine .bind (lowerItems_typed hT body hb hl hst₄) ?_
      rintro code st₅ ⟨temps₅, h₅⟩
      have h₃₅ := h₄.append h₅
      refine .pure ⟨temps₅, ((h₂.append h₃).append h₃₅).layout fun hcode => ?_⟩
      obtain ⟨⟨hcodeL, hcodeR⟩, hbody⟩ := (codeTyped_append.1 hcode).imp_left codeTyped_append.1
      have hfirst' := (hfirst.mono h₃.more h₃.made.values).mono h₃₅.more h₅.made.values
      exact codeTyped_rangeCode hcodeL hcodeR hbody hi hfirst' (hlast.mono h₃₅.more h₅.made.values)
        (Value.typed_var hT h₅.made.values hx) (Value.typed_ofTy 1 hi hone) (h₅.typed_temp (by simp))
    · obtain ⟨t, hc⟩ := hc.hasTy hT
      refine .bind (control.lower_typed hT ret hc hst₁) ?_
      rintro ⟨codeC, test⟩ st₂ ⟨temps₂, h₂, htest⟩
      refine .bind (lowerItems_typed hT body hb hl h₂.made) ?_
      rintro code st₃ ⟨temps₃, h₃⟩
      refine .pure ⟨temps₃, (h₂.append h₃).layout fun hcode => ?_⟩
      obtain ⟨hcodeC, hbody⟩ := codeTyped_append.1 hcode
      exact codeTyped_whileCode hcodeC ⟨t, htest.mono h₃.more h₃.made.values⟩ hbody
  | .leave _ id, _, temps, st, _, ⟨hid, _⟩, hst => by
    rw [Stmt.lower]
    refine .bind (Lowering.loopId_of_isSome "break" hid st) ?_
    rintro i _ ⟨rfl, rfl⟩
    exact .pure ⟨temps, (Lowered.nil hst).layout fun _ => codeTyped_cons.2 ⟨trivial, codeTyped_nil⟩⟩
  | .next _ id, _, temps, st, _, ⟨hid, _⟩, hst => by
    rw [Stmt.lower]
    refine .bind (Lowering.loopId_of_isSome "continue" hid st) ?_
    rintro i _ ⟨rfl, rfl⟩
    exact .pure ⟨temps, (Lowered.nil hst).layout fun _ => codeTyped_cons.2 ⟨trivial, codeTyped_nil⟩⟩
  | .skip, _, temps, st, _, _, hst => by
    rw [Stmt.lower]
    exact .pure ⟨temps, .nil hst⟩

theorem lowerItems_typed (hT : T.IsSound) : ∀ (items : List Item) {current : Option String} {temps : List Ty}
    {st : LoweringState}, itemsWellTyped T ret items → itemsLabelled current items → Made T temps st →
    Ensures (lowerItems items) st E fun code st' => ∃ temps', Lowered T ret temps code st' temps'
  | [], _, temps, st, _, _, hst => by
    rw [lowerItems]
    exact .pure ⟨temps, .nil hst⟩
  | .stmt s :: rest, _, temps, st, ⟨hs, hr⟩, ⟨hl, hlr⟩, hst => by
    rw [lowerItems]
    refine .bind (s.lower_typed hT hs hl hst) ?_
    rintro code st₁ ⟨temps₁, h₁⟩
    refine .bind (lowerItems_typed hT rest hr hlr h₁.made) ?_
    rintro codes st₂ ⟨temps₂, h₂⟩
    exact .pure ⟨temps₂, h₁.append h₂⟩
  | .var d :: rest, _, temps, st, ⟨hd, hr⟩, hl, hst => by
    rw [lowerItems]
    refine .bind (VarDecl.lower_typed hT ret hd hst) ?_
    rintro code st₁ ⟨temps₁, h₁⟩
    refine .bind (lowerItems_typed hT rest hr hl h₁.made) ?_
    rintro codes st₂ ⟨temps₂, h₂⟩
    exact .pure ⟨temps₂, h₁.append h₂⟩
end

/-! ## Programs -/

/-- The function is one of the table, its parameters are variables of the types they should have, and its code is
typed. -/
def Ir.Function.Typed (T : SymbolTable) (temps : List Ty) (f : Ir.Function) : Prop :=
  ∃ params ret, T.HasFunction f.name (.fn params ret) ∧ List.Forall₂ T.HasVar f.params params ∧
    CodeTyped T temps ret f.code

theorem FnHead.isGlobalNow_typed (hT : T.IsChecked) {head : FnHead} {t : Ty} {temps : List Ty} {st : LoweringState}
    (hf : T.HasFunction head.ident.name t) (hst : Made T temps st) :
    Ensures head.isGlobalNow st E fun _ st' => st' = st := by
  obtain ⟨⟨ty, role⟩, hs, hfn, _⟩ := hT.hasFunction temps hf
  refine .get_bind ?_
  rw [hst.symbols, hs]
  cases role with
  | function isDefined isGlobal => exact .pure rfl
  | automatic | static _ _ => cases hfn

/-- A well-typed function is lowered to a typed function. -/
theorem FnHead.lower_typed (hT : T.IsChecked) {head : FnHead} {body : List Item} {temps : List Ty} {st : LoweringState}
    (hd : (Decl.fn head (some body)).WellTyped T) (hl : itemsLabelled none body) (hst : Made T temps st) :
    Ensures (head.lower (some body)) st E fun f st' =>
      ∃ temps', temps <+: temps' ∧ Made T temps' st' ∧ f.Typed T temps' := by
  obtain ⟨hf, hp, hb⟩ := hd
  rw [FnHead.lower]
  refine .bind (FnHead.isGlobalNow_typed hT hf hst) ?_
  rintro isGlobal _ rfl
  refine .bind (lowerItems_typed hT.sound body (hb body rfl) hl hst) ?_
  rintro code st₁ ⟨temps₁, h₁⟩
  have hparams : List.Forall₂ T.HasVar (head.params.map fun p => p.ident.name) (head.params.map fun p => p.type.ty) :=
    List.forall₂_map_left_iff.2 (List.forall₂_map_right_iff.2 (List.forall₂_same.2 hp))
  refine .pure ⟨temps₁, h₁.more, h₁.made, _, _, hf, hparams, ?_⟩
  dsimp only
  split
  · exact h₁.typed
  · exact codeTyped_append.2 ⟨h₁.typed, codeTyped_cons.2 ⟨.inr rfl, codeTyped_nil⟩⟩

theorem lowerFunctions_typed (hT : T.IsChecked) : ∀ (ds : List Decl) {temps : List Ty} {st : LoweringState},
    (∀ d ∈ ds, d.WellTyped T) → (∀ d ∈ ds, d.Labelled) → Made T temps st →
    Ensures (lowerFunctions ds) st E fun fs st' =>
      ∃ temps', temps <+: temps' ∧ Made T temps' st' ∧ ∀ f ∈ fs, f.Typed T temps'
  | [], temps, st, _, _, hst => by
    rw [lowerFunctions]
    exact .pure ⟨temps, List.prefix_refl temps, hst, by simp⟩
  | .fn head (some body) :: rest, temps, st, hw, hl, hst => by
    rw [lowerFunctions]
    obtain ⟨hd, hw⟩ := List.forall_mem_cons.1 hw
    obtain ⟨hld, hl⟩ := List.forall_mem_cons.1 hl
    refine .bind (FnHead.lower_typed hT hd hld hst) ?_
    rintro f st₁ ⟨temps₁, hp₁, hst₁, params, ret, hname, hparams, hcode⟩
    refine .bind (lowerFunctions_typed hT rest hw hl hst₁) ?_
    rintro fs st₂ ⟨temps₂, hp₂, hst₂, hfs⟩
    refine .pure ⟨temps₂, hp₁.trans hp₂, hst₂, List.forall_mem_cons.2 ⟨?_, hfs⟩⟩
    exact ⟨params, ret, hname, hparams, hcode.mono hp₂ hst₂.values⟩
  | .fn _ none :: rest, temps, st, hw, hl, hst | .var _ :: rest, temps, st, hw, hl, hst => by
    rw [lowerFunctions]
    exact lowerFunctions_typed hT rest (List.forall_mem_cons.1 hw).2 (List.forall_mem_cons.1 hl).2 hst

/-- A well-typed program is lowered, and all its functions are typed. Its table comes back with temporaries added. -/
theorem Program.lower_typed (hT : T.IsChecked) {p : Program} (hw : ∀ d ∈ p.decls, d.WellTyped T)
    (hl : ∀ d ∈ p.decls, d.Labelled) : ∃ ir temps, p.lower T = .ok (ir, T.withTemps temps) ∧
      (∀ t ∈ temps, t.isFunction = false) ∧ ir.statics = (T.withTemps temps).staticVars ∧
      ∀ f ∈ ir.functions, f.Typed T temps := by
  have hstart : Made T [] { symbols := T } := ⟨rfl, rfl, by simp⟩
  have hall := lowerFunctions_typed (E := fun _ => False) hT p.decls hw hl hstart
  obtain ⟨⟨fs, st⟩, hrun, temps, _, hst, hfs⟩ := Yields.exists_ok hall
  refine ⟨{ functions := fs
            statics := (T.withTemps temps).staticVars
            externals := (p.decls.filterMap Decl.externalName?).eraseDups }, temps, ?_, hst.values, rfl, hfs⟩
  rw [Program.lower, hrun, ← hst.symbols]
  rfl

end Lower

end Khel
