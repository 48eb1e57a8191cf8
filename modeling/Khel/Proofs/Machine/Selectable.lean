import Khel.Proofs.Ir.Typed
import Khel.Proofs.Machine.Selected

/-!
# Selection succeeds

Selection looks names up: the width of every variable, and that a callee is a function. Code that was lowered from a
well-typed program names objects and calls functions, so every look-up succeeds, and the variables of the selected code
are objects again.

* `Ir.Instr.IsResolved`: the names of an instruction are what they should be.
* `Machine.select_yields`: such an instruction can be selected.
* `Machine.Program.ofIr_yields`: so can a whole program.
-/

namespace Khel

/-- The name is an object of the table: a variable or a temporary. -/
def SymbolTable.IsObject (T : SymbolTable) (x : String) : Prop := ∃ s, T.get? x = some s ∧ s.isFunction = false

namespace Ir

/-- The values that an instruction names. -/
def Instr.values : Instr → List Value
  | .ret v | .jumpIfZero v _ | .jumpIfNotZero v _ => [v]
  | .signExtend src dst | .truncate src dst | .unary _ src dst | .copy src dst => [src, dst]
  | .binary _ l r dst => [l, r, dst]
  | .call _ args dst => dst :: args
  | .jump _ | .label _ => []

/-- The function that an instruction calls. -/
def Instr.callee? : Instr → Option String
  | .call f _ _ => some f
  | _ => none

/-- The instruction names objects, and calls functions. -/
structure Instr.IsResolved (T : SymbolTable) (i : Instr) : Prop where
  values : ∀ v ∈ i.values, ∃ t, v.HasTy T t
  callee : ∀ f ∈ i.callee?, (T.get? f).any Symbol.isFunction = true

variable {T : SymbolTable} {temps : List Ty} {ret t : Ty}

theorem Value.Typed.hasTy {v : Value} (h : v.Typed T temps t) : ∃ u, v.HasTy (T.withTemps temps) u := by
  obtain ⟨u, hu, _⟩ := h
  exact ⟨u, hu⟩

theorem Value.hasTy_of_allTyped {ts : List Ty} {vs : List Value} (h : List.Forall₂ (Value.Typed T temps) ts vs) :
    ∀ v ∈ vs, ∃ u, v.HasTy (T.withTemps temps) u := by
  induction h with
  | nil => simp
  | cons h _ ih => exact List.forall_mem_cons.2 ⟨h.hasTy, ih⟩

/-- The names of a typed instruction are what they should be. -/
theorem Instr.Typed.isResolved (hT : T.IsChecked) : ∀ {i : Instr}, i.Typed T temps ret →
    i.IsResolved (T.withTemps temps)
  | .ret v, h => by
    refine ⟨?_, by simp [Instr.callee?]⟩
    rcases h with h | rfl
    · simpa [Instr.values] using h.hasTy
    · simpa [Instr.values] using ⟨.int32, rfl, rfl⟩
  | .signExtend src dst, ⟨hs, hd⟩ | .truncate src dst, ⟨hs, hd⟩ | .unary .logicalNot src dst, ⟨⟨_, hs⟩, hd⟩
  | .unary .negate src dst, ⟨_, _, hs, hd⟩ | .unary .complement src dst, ⟨_, _, hs, hd⟩
  | .copy src dst, ⟨_, hs, hd⟩ =>
    ⟨by simpa [Instr.values] using ⟨hs.hasTy, hd.hasTy⟩, by simp [Instr.callee?]⟩
  | .binary (.arith _) l r dst, ⟨_, _, hl, hr, hd⟩ | .binary (.compare _) l r dst, ⟨⟨_, hl, hr⟩, hd⟩ =>
    ⟨by simpa [Instr.values] using ⟨hl.hasTy, hr.hasTy, hd.hasTy⟩, by simp [Instr.callee?]⟩
  | .jumpIfZero test _, ⟨_, h⟩ | .jumpIfNotZero test _, ⟨_, h⟩ =>
    ⟨by simpa [Instr.values] using h.hasTy, by simp [Instr.callee?]⟩
  | .jump _, _ | .label _, _ => ⟨by simp [Instr.values], by simp [Instr.callee?]⟩
  | .call f args dst, ⟨params, u, hf, hargs, hd⟩ => by
    obtain ⟨s, hs, hfn, _⟩ := hT.hasFunction temps hf
    exact ⟨List.forall_mem_cons.2 ⟨hd.hasTy, Value.hasTy_of_allTyped hargs⟩, by simp [Instr.callee?, hs, hfn]⟩

/-- The names of a function are what they should be. -/
structure Function.IsResolved (T : SymbolTable) (f : Function) : Prop where
  params : ∀ x ∈ f.params, T.IsObject x
  code : ∀ i ∈ f.code, i.IsResolved T

theorem Value.HasTy.isObject (hT : T.IsSound) {x : String} (h : (Value.var x).HasTy T t) : T.IsObject x := by
  obtain ⟨ht, hf⟩ := h
  obtain ⟨s, hs, rfl⟩ := Option.map_eq_some_iff.1 ht
  exact ⟨s, hs, (hT.get hs).kind.trans hf⟩

/-- Parameters are objects. -/
theorem isObject_of_hasVar (hT : T.IsSound) (hv : ∀ t ∈ temps, t.isFunction = false) {xs : List String} {ts : List Ty}
    (h : List.Forall₂ T.HasVar xs ts) : ∀ x ∈ xs, (T.withTemps temps).IsObject x := by
  induction h with
  | nil => simp
  | cons hx _ ih =>
    obtain ⟨u, hu⟩ := (Value.typed_var hT hv hx).hasTy
    exact List.forall_mem_cons.2 ⟨hu.isObject (hT.withTemps hv), ih⟩

theorem Function.Typed.isResolved (hT : T.IsChecked) (hv : ∀ t ∈ temps, t.isFunction = false) {f : Function}
    (hf : f.Typed T temps) : f.IsResolved (T.withTemps temps) := by
  obtain ⟨params, ret, _, hparams, hcode⟩ := hf
  exact ⟨isObject_of_hasVar hT.sound hv hparams, fun i hi => (hcode i hi).isResolved hT⟩

end Ir

namespace Machine

open Ir (Value)

/-! ## Variables of machine code -/

/-- The operand is no variable, or one of those. -/
def Operand.VarsIn (vars : String → Prop) (o : Operand) : Prop := ∀ x, o = .pseudo x → vars x

/-- The variables of the instruction are among those. -/
def Instr.VarsIn (vars : String → Prop) (i : Instr) : Prop := ∀ o ∈ i.operands, o.VarsIn vars

/-- The variables of the code are among those. -/
def CodeVarsIn (vars : String → Prop) (code : List Instr) : Prop := ∀ i ∈ code, i.VarsIn vars

section VarsIn

variable {vars : String → Prop} {i : Instr} {a b : List Instr}

@[simp] theorem Operand.varsIn_pseudo {x : String} : (Operand.pseudo x).VarsIn vars ↔ vars x := by
  simp [Operand.VarsIn]

@[simp] theorem Operand.varsIn_reg (r : Register) : (Operand.reg r).VarsIn vars := by simp [Operand.VarsIn]

@[simp] theorem Operand.varsIn_imm (v : Int64) : (Operand.imm v).VarsIn vars := by simp [Operand.VarsIn]

@[simp] theorem Operand.varsIn_stack (offset : Int) : (Operand.stack offset).VarsIn vars := by simp [Operand.VarsIn]

@[simp] theorem Operand.varsIn_data (x : String) : (Operand.data x).VarsIn vars := by simp [Operand.VarsIn]

@[simp] theorem Operand.varsIn_str (s : String) : (Operand.str s).VarsIn vars := by simp [Operand.VarsIn]

@[simp] theorem codeVarsIn_nil : CodeVarsIn vars [] := by simp [CodeVarsIn]

@[simp] theorem codeVarsIn_cons : CodeVarsIn vars (i :: a) ↔ i.VarsIn vars ∧ CodeVarsIn vars a := List.forall_mem_cons

@[simp] theorem codeVarsIn_append : CodeVarsIn vars (a ++ b) ↔ CodeVarsIn vars a ∧ CodeVarsIn vars b :=
  List.forall_mem_append

end VarsIn

/-! ## Selection -/

section Select

variable {T : Khel.SymbolTable} {E : Fault → Prop} {t : Ty}

/-- The operand of a value is an object, if it is a variable. -/
theorem Operand.varsIn_ofValue (hT : T.IsSound) {v : Value} (hv : v.HasTy T t) :
    (Operand.ofValue v).VarsIn T.IsObject := by
  obtain ⟨ht, hf⟩ := hv
  cases v with
  | var x => exact Operand.varsIn_pseudo.2 (Value.HasTy.isObject hT ⟨ht, hf⟩)
  | int _ | long _ => exact Operand.varsIn_imm _
  | str _ => exact Operand.varsIn_str _

theorem Operand.varsIn_ofParam {vars : String → Prop} (index : Nat) : (Operand.ofParam index).VarsIn vars := by
  unfold Operand.ofParam
  split
  · exact Operand.varsIn_reg _
  · exact Operand.varsIn_stack _

/-- Six arguments travel in registers. -/
theorem Register.le_of_ofArgument? : ∀ {index : Nat}, Register.ofArgument? index = none → 6 ≤ index
  | 0, h | 1, h | 2, h | 3, h | 4, h | 5, h => by cases h
  | index + 6, _ => Nat.le_add_left 6 index

theorem Operand.ofParam_ne_reg (index : Nat) {r : Register} (h : r = .sp ∨ r = .bp) :
    Operand.ofParam index ≠ .reg r := by
  unfold Operand.ofParam
  split
  · next r' hr' =>
    rintro ⟨⟩
    rcases h with rfl | rfl <;> exact absurd hr' (by unfold Register.ofArgument?; split <;> simp)
  · simp

theorem Operand.ofParam_nonneg {index : Nat} {offset : Int} (h : Operand.ofParam index = .stack offset) :
    0 ≤ offset := by
  unfold Operand.ofParam at h
  split at h
  · cases h
  · next hindex =>
    obtain rfl := Operand.stack.inj h
    have := Register.le_of_ofArgument? hindex
    omega

theorem selectUnary_yields (hT : T.IsSound) (op : UnaryOp) {src dst : Value} {u : Ty} (hs : src.HasTy T t)
    (hd : dst.HasTy T u) : Yields (selectUnary T op src dst) E (CodeVarsIn T.IsObject) := by
  have hs' := Operand.varsIn_ofValue hT hs
  have hd' := Operand.varsIn_ofValue hT hd
  unfold selectUnary
  rw [Width.ofValue_eq hs, Width.ofValue_eq hd]
  cases op <;> exact .pure (by simp [compareCode, Instr.VarsIn, Instr.operands, hs', hd'])

theorem selectBinary_yields (hT : T.IsSound) (op : StrictOp) {l r dst : Value} {u w : Ty} (hl : l.HasTy T t)
    (hr : r.HasTy T u) (hd : dst.HasTy T w) : Yields (selectBinary T op l r dst) E (CodeVarsIn T.IsObject) := by
  have hl' := Operand.varsIn_ofValue hT hl
  have hr' := Operand.varsIn_ofValue hT hr
  have hd' := Operand.varsIn_ofValue hT hd
  unfold selectBinary
  rw [Width.ofValue_eq hl, Width.ofValue_eq hd]
  cases op with
  | arith op =>
    cases op <;> exact .pure (by simp [divisionCode, Instr.VarsIn, Instr.operands, hl', hr', hd'])
  | compare op => exact .pure (by simp [compareCode, Instr.VarsIn, Instr.operands, hl', hr', hd'])

theorem selectRegisterArgs_yields (hT : T.IsSound) : ∀ (index : Nat) (vs : List Value), (∀ v ∈ vs, ∃ t, v.HasTy T t) →
    Yields (selectRegisterArgs T index vs) E (CodeVarsIn T.IsObject)
  | _, [], _ => .pure codeVarsIn_nil
  | index, v :: vs, h => by
    obtain ⟨⟨t, hv⟩, hvs⟩ := List.forall_mem_cons.1 h
    have hv' := Operand.varsIn_ofValue hT hv
    unfold selectRegisterArgs
    rw [Width.ofValue_eq hv]
    refine .bind (R := fun w => w = t.width) (.pure rfl) fun _ _ => ?_
    refine .bind (selectRegisterArgs_yields hT (index + 1) vs hvs) fun code hcode => .pure ?_
    simp [Instr.VarsIn, Instr.operands, hv', hcode, Operand.varsIn_ofParam]

theorem selectPush_yields (hT : T.IsSound) {v : Value} (hv : v.HasTy T t) :
    Yields (selectPush T v) E (CodeVarsIn T.IsObject) := by
  have hv' := Operand.varsIn_ofValue hT hv
  unfold selectPush
  rw [Width.ofValue_eq hv]
  refine .bind (R := fun _ => True) (.pure trivial) fun width _ => ?_
  split
  all_goals exact .pure (by simp [Instr.VarsIn, Instr.operands, hv'])

theorem selectPushes_yields (hT : T.IsSound) : ∀ vs : List Value, (∀ v ∈ vs, ∃ t, v.HasTy T t) →
    Yields (selectPushes T vs) E (CodeVarsIn T.IsObject)
  | [], _ => .pure codeVarsIn_nil
  | v :: vs, h => by
    obtain ⟨⟨t, hv⟩, hvs⟩ := List.forall_mem_cons.1 h
    refine .bind (selectPush_yields hT hv) fun push hpush => ?_
    exact .bind (selectPushes_yields hT vs hvs) fun pushes hpushes => .pure (codeVarsIn_append.2 ⟨hpush, hpushes⟩)

theorem codeVarsIn_adjustStack {vars : String → Prop} (op : BinOp) (bytes : Nat) :
    CodeVarsIn vars (adjustStack op bytes) := by
  unfold adjustStack
  split <;> simp [Instr.VarsIn, Instr.operands]

theorem selectCall_yields (hT : T.IsSound) {f : String} {args : List Value} {dst : Value}
    (hf : (T.get? f).any Symbol.isFunction = true) (hargs : ∀ v ∈ args, ∃ t, v.HasTy T t) (hd : dst.HasTy T t) :
    Yields (selectCall T f args dst) E (CodeVarsIn T.IsObject) := by
  have hd' := Operand.varsIn_ofValue hT hd
  have htake : ∀ v ∈ args.take 6, ∃ t, v.HasTy T t := fun v hv => hargs v (List.mem_of_mem_take hv)
  have hdrop : ∀ v ∈ (args.drop 6).reverse, ∃ t, v.HasTy T t := fun v hv =>
    hargs v (List.mem_of_mem_drop (List.mem_reverse.1 hv))
  unfold selectCall
  rw [if_pos hf, Width.ofValue_eq hd]
  refine .bind (selectRegisterArgs_yields hT 0 _ htake) fun moves hmoves => ?_
  refine .bind (selectPushes_yields hT _ hdrop) fun pushes hpushes => ?_
  refine .bind (R := fun _ => True) (.pure trivial) fun width _ => .pure ?_
  simp [callCode, codeVarsIn_adjustStack, hmoves, hpushes, Instr.VarsIn, Instr.operands, hd']

/-- An instruction whose names are what they should be can be selected. -/
theorem select_yields (hT : T.IsSound) : ∀ {i : Ir.Instr}, i.IsResolved T →
    Yields (select T i) E (CodeVarsIn T.IsObject)
  | .ret v, ⟨hvs, _⟩ => by
    obtain ⟨t, hv⟩ := hvs v (by simp [Ir.Instr.values])
    rw [select, Width.ofValue_eq hv]
    exact .pure (by simp [Instr.VarsIn, Instr.operands, Operand.varsIn_ofValue hT hv])
  | .signExtend src dst, ⟨hvs, _⟩ | .truncate src dst, ⟨hvs, _⟩ => by
    obtain ⟨t, hs⟩ := hvs src (by simp [Ir.Instr.values])
    obtain ⟨u, hd⟩ := hvs dst (by simp [Ir.Instr.values])
    rw [select]
    exact .pure (by simp [Instr.VarsIn, Instr.operands, Operand.varsIn_ofValue hT hs, Operand.varsIn_ofValue hT hd])
  | .unary op src dst, ⟨hvs, _⟩ => by
    obtain ⟨t, hs⟩ := hvs src (by simp [Ir.Instr.values])
    obtain ⟨u, hd⟩ := hvs dst (by simp [Ir.Instr.values])
    exact selectUnary_yields hT op hs hd
  | .binary op l r dst, ⟨hvs, _⟩ => by
    obtain ⟨t, hl⟩ := hvs l (by simp [Ir.Instr.values])
    obtain ⟨u, hr⟩ := hvs r (by simp [Ir.Instr.values])
    obtain ⟨w, hd⟩ := hvs dst (by simp [Ir.Instr.values])
    exact selectBinary_yields hT op hl hr hd
  | .copy src dst, ⟨hvs, _⟩ => by
    obtain ⟨t, hs⟩ := hvs src (by simp [Ir.Instr.values])
    obtain ⟨u, hd⟩ := hvs dst (by simp [Ir.Instr.values])
    rw [select, Width.ofValue_eq hd]
    exact .pure (by simp [Instr.VarsIn, Instr.operands, Operand.varsIn_ofValue hT hs, Operand.varsIn_ofValue hT hd])
  | .jump _, _ | .label _, _ => .pure (by simp [Instr.VarsIn, Instr.operands])
  | .jumpIfZero test _, ⟨hvs, _⟩ | .jumpIfNotZero test _, ⟨hvs, _⟩ => by
    obtain ⟨t, ht⟩ := hvs test (by simp [Ir.Instr.values])
    rw [select, selectJump, Width.ofValue_eq ht]
    exact .pure (by simp [Instr.VarsIn, Instr.operands, Operand.varsIn_ofValue hT ht])
  | .call f args dst, ⟨hvs, hf⟩ => by
    obtain ⟨⟨t, hd⟩, hargs⟩ := List.forall_mem_cons.1 hvs
    exact selectCall_yields hT (hf f rfl) hargs hd

theorem selectAll_yields (hT : T.IsSound) : ∀ code : List Ir.Instr, (∀ i ∈ code, i.IsResolved T) →
    Yields (selectAll T code) E (CodeVarsIn T.IsObject)
  | [], _ => .pure codeVarsIn_nil
  | i :: is, h => by
    obtain ⟨hi, his⟩ := List.forall_mem_cons.1 h
    refine .bind (select_yields hT hi) fun code hcode => ?_
    exact .bind (selectAll_yields hT is his) fun codes hcodes => .pure (codeVarsIn_append.2 ⟨hcode, hcodes⟩)

theorem selectParams_yields (hT : T.IsSound) : ∀ (index : Nat) (xs : List String), (∀ x ∈ xs, T.IsObject x) →
    Yields (selectParams T index xs) E (CodeVarsIn T.IsObject)
  | _, [], _ => .pure codeVarsIn_nil
  | index, x :: xs, h => by
    obtain ⟨hx, hxs⟩ := List.forall_mem_cons.1 h
    obtain ⟨s, hs, hf⟩ := hx
    have hw : Width.ofVar T x = .ok s.ty.width := by
      simp only [Width.ofVar, hs, Width.ofTy_eq ((hT.get hs).kind.symm.trans hf)]
    unfold selectParams
    rw [hw]
    refine .bind (R := fun w => w = s.ty.width) (.pure rfl) fun _ _ => ?_
    refine .bind (selectParams_yields hT (index + 1) xs hxs) fun code hcode => .pure ?_
    simp [Instr.VarsIn, Instr.operands, Operand.varsIn_ofParam, hcode, h x (by simp)]

/-! ## Programs -/

theorem Function.ofIr_yields (hT : T.IsSound) {f : Ir.Function} (hf : f.IsResolved T) :
    Yields (Function.ofIr T f) E fun f' => f'.name = f.name ∧ CodeVarsIn T.IsObject f'.code := by
  refine .bind (selectParams_yields hT 0 f.params hf.params) fun fetch hfetch => ?_
  exact .bind (selectAll_yields hT f.code hf.code) fun code hcode => .pure ⟨rfl, codeVarsIn_append.2 ⟨hfetch, hcode⟩⟩

theorem StaticVar.ofIr_yields (hT : T.IsSound) {v : Ir.StaticVar} (hv : v ∈ SymbolTable.staticVars T) :
    Yields (StaticVar.ofIr v) E fun _ => True := by
  obtain ⟨⟨x, s⟩, he, hs⟩ := List.mem_filterMap.1 hv
  have hty : v.ty = s.ty ∧ s.isFunction = false := by
    obtain ⟨ty, role⟩ := s
    unfold Symbol.staticVar? at hs
    split at hs
    · cases hs
      exact ⟨rfl, by simp_all [Symbol.isFunction]⟩
    · cases hs
      exact ⟨rfl, by simp_all [Symbol.isFunction]⟩
    · cases hs
  have hf : v.ty.isFunction = false := by rw [hty.1, ← (hT _ he).kind, hty.2]
  rw [StaticVar.ofIr, Width.ofTy_eq hf]
  exact .pure trivial

/-- The machine's table knows the objects and the functions of a table, and no frame yet. -/
structure SymbolTable.Represents (M : SymbolTable) (T : Khel.SymbolTable) : Prop where
  objects : ∀ x, T.IsObject x → ∃ width isStatic, M.get? x = some (.object width isStatic)
  functions : ∀ f t, T.HasFunction f t → ∃ isDefined, M.get? f = some (.function isDefined none)

/-- What machine code keeps of a sound symbol. -/
theorem Symbol.ofSymbol_yields {s : Khel.Symbol} (hs : s.IsSound) : Yields (Symbol.ofSymbol s) E fun m =>
    (s.isFunction = false → ∃ width isStatic, m = .object width isStatic) ∧
      (s.isFunction = true → ∃ isDefined, m = .function isDefined none) := by
  obtain ⟨ty, role⟩ := s
  cases role with
  | function isDefined isGlobal => exact .pure ⟨fun h => (by cases h), fun _ => ⟨isDefined, rfl⟩⟩
  | automatic | static _ _ =>
    have hty : ty.isFunction = false := hs.kind.symm
    simp only [Symbol.ofSymbol, Width.ofTy_eq hty]
    exact .pure ⟨fun _ => ⟨_, _, rfl⟩, fun h => by cases h⟩

theorem SymbolTable.ofEntries_yields : ∀ {es : List (String × Khel.Symbol)}, (∀ e ∈ es, e.2.IsSound) →
    Yields (SymbolTable.ofEntries es) E fun ms => ∀ x s, Table.findEntry? x es = some s →
      ∃ m, Table.findEntry? x ms = some m ∧ (s.isFunction = false → ∃ width isStatic, m = .object width isStatic) ∧
        (s.isFunction = true → ∃ isDefined, m = .function isDefined none)
  | [], _ => .pure fun x s h => by cases h
  | (n, s) :: rest, h => by
    obtain ⟨hs, hrest⟩ := List.forall_mem_cons.1 h
    refine .bind (Symbol.ofSymbol_yields hs) fun m hm => ?_
    refine .bind (SymbolTable.ofEntries_yields hrest) fun ms hms => .pure fun x s' hx => ?_
    unfold Table.findEntry? at hx ⊢
    split at hx
    · next hn =>
      cases hx
      exact ⟨m, if_pos hn, hm⟩
    · next hn =>
      rw [if_neg hn]
      exact hms x s' hx

theorem SymbolTable.ofSymbols_yields (hT : T.IsSound) : Yields (SymbolTable.ofSymbols T) E fun M => M.Represents T := by
  refine .bind (SymbolTable.ofEntries_yields hT) fun ms hms => .pure ⟨fun x hx => ?_, fun f t hf => ?_⟩
  · obtain ⟨s, hs, hfn⟩ := hx
    obtain ⟨m, hm, hobj, _⟩ := hms x s hs
    obtain ⟨width, isStatic, rfl⟩ := hobj hfn
    exact ⟨width, isStatic, hm⟩
  · obtain ⟨s, hs, hfn, _⟩ := hf
    obtain ⟨m, hm, _, hfun⟩ := hms f s hs
    obtain ⟨isDefined, rfl⟩ := hfun hfn
    exact ⟨isDefined, hm⟩

/-- A program whose names are what they should be can be selected. Its functions keep their names, and their variables
are objects. -/
theorem Program.ofIr_yields (hT : T.IsSound) {p : Ir.Program} (hf : ∀ f ∈ p.functions, f.IsResolved T)
    (hs : p.statics = T.staticVars) : Yields (Program.ofIr T p) E fun r => r.2.Represents T ∧
      r.1.functions.map Function.name = p.functions.map Ir.Function.name ∧
      ∀ f ∈ r.1.functions, CodeVarsIn T.IsObject f.code := by
  have hone : ∀ f ∈ p.functions, Yields (Function.ofIr T f) E fun f' =>
      f'.name = f.name ∧ CodeVarsIn T.IsObject f'.code := fun f hm => Function.ofIr_yields hT (hf f hm)
  have hnames := Yields.mapM fun f hm => (hone f hm).mono fun _ h => h.1
  have hcode := Yields.mapM_all fun f hm => (hone f hm).mono fun _ h => h.2
  refine .bind (hnames.and hcode) fun functions hfunctions => ?_
  refine .bind (.mapM_all fun v hv => StaticVar.ofIr_yields hT (hs ▸ hv)) fun statics _ => ?_
  refine .bind (SymbolTable.ofSymbols_yields hT) fun M hM => .pure ⟨hM, ?_, hfunctions.2⟩
  rw [← List.forall₂_eq_eq_eq, List.forall₂_map_left_iff, List.forall₂_map_right_iff]
  exact hfunctions.1.flip

end Select

end Machine

end Khel
