import Khel.Proofs.Ir.Typed

/-!
# Widths are consistent

Selection takes the width of an instruction from one of its operands, so all of them must agree. They do if no variable
is lost to a temporary: the table that lowering leaves then gives every operand the type that its instruction works on.

* `Ir.Instr.WellTyped`: the types of the operands of an instruction.
* `Program.lower_wellTyped`: the instructions of a lowered program have operands of these types.
-/

namespace Khel

namespace Ir

/-- The operands of an instruction have the types that it works on, in a function that returns `ret`. -/
def Instr.WellTyped (T : SymbolTable) (ret : Ty) : Instr → Prop
  | .ret v => v.HasTy T ret ∨ v = .int 0
  | .signExtend src dst => src.HasTy T .int32 ∧ dst.HasTy T .int64
  | .truncate src dst => src.HasTy T .int64 ∧ dst.HasTy T .int32
  | .unary .logicalNot src dst => (∃ t, src.HasTy T t) ∧ dst.HasTy T .int32
  | .unary _ src dst => ∃ t, t.isInteger = true ∧ src.HasTy T t ∧ dst.HasTy T t
  | .binary (.arith _) l r dst => ∃ t, t.isInteger = true ∧ l.HasTy T t ∧ r.HasTy T t ∧ dst.HasTy T t
  | .binary (.compare _) l r dst => (∃ t, l.HasTy T t ∧ r.HasTy T t) ∧ dst.HasTy T .int32
  | .copy src dst => ∃ t, src.HasTy T t ∧ dst.HasTy T t
  | .jump _ | .label _ => True
  | .jumpIfZero test _ | .jumpIfNotZero test _ => ∃ t, test.HasTy T t
  | .call f args dst =>
    ∃ params t, T.HasFunction f (.fn params t) ∧ List.Forall₂ (Value.HasTy T) params args ∧ dst.HasTy T t

/-- The function is one of the table, its parameters are variables of the types they should have, and so are the
operands in its code. -/
structure Function.WellTyped (T : SymbolTable) (params : List Ty) (ret : Ty) (f : Function) : Prop where
  signature : T.HasFunction f.name (.fn params ret)
  params : List.Forall₂ T.HasVar f.params params
  code : ∀ i ∈ f.code, i.WellTyped T ret

variable {T : SymbolTable} {temps : List Ty} {ret t : Ty}

theorem Value.Typed.hasTy_of_tempFree (hfree : T.TempFree) {v : Value} (h : v.Typed T temps t) :
    v.HasTy (T.withTemps temps) t := by
  obtain ⟨u, hu, ht⟩ := h
  exact ht hfree ▸ hu

/-- Where no name was lost, the types in the table are the right ones. -/
theorem Instr.Typed.wellTyped (hT : T.IsChecked) (hfree : T.TempFree) : ∀ {i : Instr}, i.Typed T temps ret →
    i.WellTyped (T.withTemps temps) ret
  | .ret _, h => h.imp_left (·.hasTy_of_tempFree hfree)
  | .signExtend .., ⟨hs, hd⟩ | .truncate .., ⟨hs, hd⟩ => ⟨hs.hasTy_of_tempFree hfree, hd.hasTy_of_tempFree hfree⟩
  | .unary .logicalNot _ _, ⟨⟨t, hs⟩, hd⟩ => ⟨⟨t, hs.hasTy_of_tempFree hfree⟩, hd.hasTy_of_tempFree hfree⟩
  | .unary .negate _ _, ⟨t, hi, hs, hd⟩ | .unary .complement _ _, ⟨t, hi, hs, hd⟩ =>
    ⟨t, hi, hs.hasTy_of_tempFree hfree, hd.hasTy_of_tempFree hfree⟩
  | .binary (.arith _) _ _ _, ⟨t, hi, hl, hr, hd⟩ =>
    ⟨t, hi, hl.hasTy_of_tempFree hfree, hr.hasTy_of_tempFree hfree, hd.hasTy_of_tempFree hfree⟩
  | .binary (.compare _) _ _ _, ⟨⟨t, hl, hr⟩, hd⟩ =>
    ⟨⟨t, hl.hasTy_of_tempFree hfree, hr.hasTy_of_tempFree hfree⟩, hd.hasTy_of_tempFree hfree⟩
  | .copy .., ⟨t, hs, hd⟩ => ⟨t, hs.hasTy_of_tempFree hfree, hd.hasTy_of_tempFree hfree⟩
  | .jump _, _ | .label _, _ => trivial
  | .jumpIfZero .., ⟨t, h⟩ | .jumpIfNotZero .., ⟨t, h⟩ => ⟨t, h.hasTy_of_tempFree hfree⟩
  | .call .., ⟨params, t, hf, ha, hd⟩ =>
    ⟨params, t, hT.hasFunction temps hf, ha.imp fun _ _ h => h.hasTy_of_tempFree hfree, hd.hasTy_of_tempFree hfree⟩

theorem Function.Typed.wellTyped (hT : T.IsChecked) (hfree : T.TempFree) {f : Function} (hf : f.Typed T temps) :
    ∃ params ret, f.WellTyped (T.withTemps temps) params ret := by
  obtain ⟨params, ret, hname, hparams, hcode⟩ := hf
  refine ⟨params, ret, hT.hasFunction temps hname, hparams.imp ?_, fun i hi => (hcode i hi).wellTyped hT hfree⟩
  rintro x t ⟨s, hs, hx, rfl⟩
  exact ⟨s, hfree.get?_withTemps hs, hx, rfl⟩

end Ir

/-- An accepted program is lowered, and the table that comes back gives all operands the types they should have. -/
theorem Program.lower_wellTyped {p q : Program} {T : SymbolTable} (hp : p.IsPlain) (htmp : "tmp" ∉ p.ownNames)
    (ha : p.analyze = .ok (q, T)) : ∃ ir T', q.lower T = .ok (ir, T') ∧
      ∀ f ∈ ir.functions, ∃ params ret, f.WellTyped T' params ret := by
  have h := (Program.analyze_yields hp).of_ok ha
  obtain ⟨ir, temps, hlower, _, _, hfs⟩ := Program.lower_typed h.isChecked h.wellTyped h.labelled
  exact ⟨ir, T.withTemps temps, hlower, fun f hf => (hfs f hf).wellTyped h.isChecked (h.tempFree htmp)⟩

/-- A narrow variable is compared with a wide one, counted up and returned as a wide value. -/
def countsUp : Program :=
  ⟨[.fn ⟨⟨"f", .nowhere⟩, [⟨⟨"a", .nowhere⟩, .int⟩, ⟨⟨"b", .nowhere⟩, .long⟩], .long, true, false⟩
    (some [.stmt (.whileLoop (.binary {} (.strict (.compare .lt)) (.var {} "a") (.var {} "b"))
        [.stmt (.eval (.assign {} (.var {} "a") (.binary {} (.strict (.arith .add)) (.var {} "a") (.int {} 1))))] none),
      .stmt (.ret (some (.var {} "a")) .nowhere)])]⟩

theorem countsUp_wellTyped : ∃ q T, countsUp.analyze = .ok (q, T) ∧ ∃ ir T', q.lower T = .ok (ir, T') ∧
    ∀ f ∈ ir.functions, ∃ params ret, f.WellTyped T' params ret :=
  ⟨_, _, rfl, Program.lower_wellTyped (p := countsUp) (by decide) (by decide) rfl⟩

end Khel
