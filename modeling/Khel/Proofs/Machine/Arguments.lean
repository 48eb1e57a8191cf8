import Khel.Assembly.Program
import Khel.Proofs.Machine.CallSequence
import Khel.Proofs.Machine.SlotLayout

/-!
# Caller and callee agree on every argument

Every parameter of a function starts with the value that the caller passed for it, whether it travels in a register or
on the stack, and however the caller has it: as a constant, as a text, or in a variable. This holds for selected code,
where variables have cells of their own, and for the code that comes out of slot assignment and legalization, where they
have places in memory.

* `Machine.IsCall`: arguments and parameters that belong together.
* `Machine.Handles`: code that names its operands, and can be made legal once they have their places.
* `Machine.call_reaches_params`: arguments arrive, wherever variables are, if passing them cannot be seen there.
* `Machine.steady_slots`, `Machine.isReadyFor_slots`: slots are such places.
* `Machine.selectCall_delivers`: every argument arrives, before and after slot assignment and legalization.
-/

namespace Khel

/-- The variable has a place of its own in every call, and holds values of the type. -/
def SymbolTable.IsAutomatic (T : SymbolTable) (x : String) (t : Ty) : Prop := T.get? x = some ⟨t, .automatic⟩

theorem SymbolTable.IsAutomatic.hasTy {T : SymbolTable} {x : String} {t : Ty} (hx : T.IsAutomatic x t)
    (hT : T.IsSound) : (Ir.Value.var x).HasTy T t :=
  ⟨Option.map_eq_some_iff.2 ⟨_, hx, rfl⟩, (hT.get hx).kind.symm⟩

instance (T : SymbolTable) (x : String) (t : Ty) : Decidable (T.IsAutomatic x t) :=
  inferInstanceAs (Decidable (T.get? x = some ⟨t, .automatic⟩))

instance (T : SymbolTable) (t : Ty) (v : Ir.Value) : Decidable (v.HasTy T t) :=
  inferInstanceAs (Decidable (v.ty? T = some t ∧ t.isFunction = false))

namespace Machine

open Ir (Value)

/-! ## Tables -/

/-- The table of machine code that belongs to a table, whatever frames have been recorded in it. -/
def SymbolTable.IsFor (M : SymbolTable) (T : Khel.SymbolTable) : Prop :=
  ∃ M₀, SymbolTable.ofSymbols T = .ok M₀ ∧ M₀.SameObjects M

theorem SymbolTable.ofEntries_get {x : String} {s : Khel.Symbol} : ∀ {es : List (String × Khel.Symbol)},
    Table.findEntry? x es = some s → Yields (SymbolTable.ofEntries es) (fun _ => True) fun ms =>
      ∃ sym, Table.findEntry? x ms = some sym ∧ Symbol.ofSymbol s = .ok sym
  | [], h => by cases h
  | (name, s') :: rest, h => by
    unfold Table.findEntry? at h
    refine .bind (R := fun sym => Symbol.ofSymbol s' = .ok sym) (.of_forall fun _ h => h) fun sym hsym => ?_
    split at h
    · next hn =>
      cases h
      refine .bind (R := fun _ => True) (.of_forall fun _ _ => trivial) fun ms _ => .pure ⟨sym, ?_, hsym⟩
      rw [Table.findEntry?, if_pos hn]
    · next hn =>
      refine .bind (SymbolTable.ofEntries_get h) fun ms hms => ?_
      obtain ⟨sym', hget, hsym'⟩ := hms
      exact .pure ⟨sym', by rw [Table.findEntry?, if_neg hn, hget], hsym'⟩

section Tables

variable {T : Khel.SymbolTable} {M : SymbolTable} {frame : Frame} {x : String} {t : Ty}

/-- A variable is an object of the width of its type, and is static if it was. -/
theorem SymbolTable.IsFor.get (hM : M.IsFor T) (hT : T.IsSound) (hx : (Value.var x).HasTy T t) :
    ∃ s, T.get? x = some s ∧ s.ty = t ∧ M.get? x = some (.object t.width s.isStatic) := by
  obtain ⟨ht, hf⟩ := hx
  obtain ⟨s, hs, rfl⟩ := Option.map_eq_some_iff.1 ht
  obtain ⟨M₀, h₀, hsame⟩ := hM
  have hget : Yields (SymbolTable.ofSymbols T) (fun _ => True) fun M₀ =>
      ∃ sym, M₀.get? x = some sym ∧ Symbol.ofSymbol s = .ok sym :=
    .bind (SymbolTable.ofEntries_get hs) fun _ h => .pure h
  obtain ⟨sym, hsym, hof⟩ := hget.of_ok h₀
  refine ⟨s, hs, rfl, (hsame x _ _).2 ?_⟩
  have hkind : s.isFunction = false := (hT.get hs).kind.trans hf
  obtain ⟨ty, role⟩ := s
  cases role with
  | function _ _ => cases hkind
  | automatic | static _ _ =>
    simp only [Symbol.ofSymbol, Width.ofTy_eq hf] at hof
    cases hof
    exact hsym

theorem Frame.isPlacing (M : SymbolTable) (frame : Frame) : IsPlacing (frame.placeOf M) := by
  refine ⟨fun o ho => Frame.placeOf_of_isPseudo ho, fun x => ?_⟩
  simp only [Frame.placeOf]
  split
  · exact .inr (.inr rfl)
  · exact .inr (.inl ⟨_, rfl⟩)
  · exact .inl rfl

/-- The place of a variable is its slot, unless it is static. -/
theorem Frame.IsLaidOut.placeOf_var (hf : frame.IsLaidOut M) (hM : M.IsFor T) (hT : T.IsSound)
    (hx : (Value.var x).HasTy T t) (hp : (frame.placeOf M (.pseudo x)).isPseudo = false) :
    (∃ s, T.get? x = some s ∧ s.isStatic = true ∧ s.ty = t ∧ frame.placeOf M (.pseudo x) = .data x) ∨
      ∃ d, frame.slots.get? x = some d ∧ frame.placeOf M (.pseudo x) = .stack d ∧
        M.get? x = some (.object t.width false) ∧ frame.bottom ≤ d ∧ d + t.width.bytes ≤ 0 := by
  obtain ⟨s, hs, hty, hobj⟩ := hM.get hT hx
  cases hstatic : s.isStatic with
  | true =>
    rw [hstatic] at hobj
    exact .inl ⟨s, hs, hstatic, hty, by simp only [Frame.placeOf, hobj]⟩
  | false =>
    rw [hstatic] at hobj
    cases hslot : frame.slots.get? x with
    | none => simp [Frame.placeOf, hobj, hslot, Operand.isPseudo] at hp
    | some d =>
      obtain ⟨w, hw, hbottom, hend, _⟩ := hf.slot x d hslot
      cases hobj.symm.trans hw
      exact .inr ⟨d, rfl, by simp only [Frame.placeOf, hobj, hslot], hobj, hbottom, hend⟩

end Tables

/-! ## Code that can be made legal -/

section Legal

variable {world : World} {T : Khel.SymbolTable} {place : Operand → Operand} {v : Value} {t : Ty}

/-- Once it is placed, the instruction can be made legal. -/
def Instr.Legalizes (i : Instr) : Prop :=
  ∀ place, IsPlacing place → ((i.relocate place).VarsIn fun _ => False) → (i.relocate place).IsLegalizable

theorem Operand.isPseudo_of_varsIn {o : Operand} (h : o.VarsIn fun _ => False) : o.isPseudo = false := by
  cases o with
  | pseudo x => exact (Operand.varsIn_pseudo.1 h).elim
  | _ => rfl

/-- A value is never in a scratch register, and only a text is a text. -/
theorem IsPlacing.ofValue (hplace : IsPlacing place) (v : Value) : (place (.ofValue v)).isScratch = false ∧
    ((place (.ofValue v)).isText = true → ∃ text, v = .str text) := by
  cases v with
  | var x =>
    rcases hplace.var x with h | ⟨d, h⟩ | h <;> rw [Operand.ofValue, h] <;> exact ⟨rfl, fun ht => by cases ht⟩
  | str text =>
    rw [Operand.ofValue, hplace.fixes _ rfl]
    exact ⟨rfl, fun _ => ⟨text, rfl⟩⟩
  | int _ | long _ =>
    rw [Operand.ofValue, hplace.fixes _ rfl]
    exact ⟨rfl, fun ht => by cases ht⟩

theorem legalizes_mov (hv : v.HasTy T t) {d : Operand} (hd : d.isPlace = true) (hd' : d.isScratch = false) :
    (Instr.mov t.width (.ofValue v) d).Legalizes := by
  intro place hplace hvars
  have hfix : place d = d := hplace.fixes d (by cases d <;> first | rfl | cases hd)
  have htext : d.isText = false := by cases d <;> first | rfl | cases hd
  simp only [Instr.relocate_mov, hfix] at hvars ⊢
  obtain ⟨hscratch, hstr⟩ := hplace.ofValue v
  constructor
  · exact fun o ho => Operand.isPseudo_of_varsIn (hvars o ho)
  · simp [Instr.operands, hscratch, hd']
  · simp [Instr.destinations, hd]
  · intro o ho ht
    simp only [Instr.operands, List.mem_cons, List.not_mem_nil, or_false] at ho
    rcases ho with rfl | rfl
    · obtain ⟨text, rfl⟩ := hstr ht
      cases hv.1
      exact ⟨rfl, by simp [Instr.textOperands]⟩
    · rw [htext] at ht
      cases ht

theorem legalizes_push {o : Operand}
    (h : ∀ place, IsPlacing place → (place o).isScratch = false ∧ (place o).isText = false) :
    (Instr.push o).Legalizes := by
  intro place hplace hvars
  obtain ⟨hscratch, htext⟩ := h place hplace
  constructor
  · exact fun o ho => Operand.isPseudo_of_varsIn (hvars o ho)
  · simp [Instr.operands, hscratch]
  · simp [Instr.destinations]
  · simp [Instr.operands, htext]

theorem isLegalizable_adjust (op : BinOp) (bytes : Int64) :
    (Instr.binary op .quad (.imm bytes) (.reg .sp)).IsLegalizable := by
  constructor <;> simp [Instr.operands, Instr.destinations, Operand.isPseudo, Operand.isScratch, Operand.isPlace,
    Operand.isText, srcScratch, dstScratch]

theorem legalizes_adjustStack (op : BinOp) (bytes : Nat) : ∀ i ∈ adjustStack op bytes, i.Legalizes := by
  intro i hi place hplace _
  unfold adjustStack at hi
  split at hi
  · cases hi
  · obtain rfl := List.mem_singleton.1 hi
    simp only [Instr.relocate_binary, hplace.fixes (.imm _) rfl, hplace.fixes (.reg _) rfl]
    exact isLegalizable_adjust ..

theorem legalizes_fetch (w : Width) (index : Nat) (x : String) :
    (Instr.mov w (.ofParam index) (.pseudo x)).Legalizes := by
  intro place hplace hvars
  obtain ⟨hpseudo, hscratch, htext⟩ := Operand.ofParam_plain index
  simp only [Instr.relocate_mov, hplace.fixes _ hpseudo] at hvars ⊢
  have hdst : (place (.pseudo x)).isScratch = false ∧ (place (.pseudo x)).isPlace = true ∧
      (place (.pseudo x)).isText = false := by
    rcases hplace.var x with h | ⟨d, h⟩ | h
    · have hplaced := hvars (place (.pseudo x)) (by simp [Instr.operands])
      rw [h] at hplaced
      exact (Operand.varsIn_pseudo.1 hplaced).elim
    · rw [h]
      exact ⟨rfl, rfl, rfl⟩
    · rw [h]
      exact ⟨rfl, rfl, rfl⟩
  constructor
  · exact fun o ho => Operand.isPseudo_of_varsIn (hvars o ho)
  · simp [Instr.operands, hscratch, hdst]
  · simp [Instr.destinations, hdst]
  · simp [Instr.operands, htext, hdst]

/-- The code names the operands, and can be made legal once they have their places. -/
structure Handles (os : List Operand) (code : List Instr) : Prop where
  names : ∀ o ∈ os, ∃ i ∈ code, o ∈ i.operands
  legalizes : ∀ i ∈ code, i.Legalizes

section Handles

variable {os os' : List Operand} {a b : List Instr} {i : Instr} {o : Operand}

theorem Handles.of_legalizes (h : ∀ i ∈ a, i.Legalizes) : Handles [] a := ⟨by simp, h⟩

theorem Handles.nil : Handles [] [] := .of_legalizes (by simp)

theorem Handles.append (ha : Handles os a) (hb : Handles os' b) : Handles (os ++ os') (a ++ b) := by
  refine ⟨fun o ho => ?_, List.forall_mem_append.2 ⟨ha.legalizes, hb.legalizes⟩⟩
  rcases List.mem_append.1 ho with ho | ho
  · obtain ⟨i, hi, h⟩ := ha.names o ho
    exact ⟨i, List.mem_append_left b hi, h⟩
  · obtain ⟨i, hi, h⟩ := hb.names o ho
    exact ⟨i, List.mem_append_right a hi, h⟩

theorem Handles.cons (ho : o ∈ i.operands) (hi : i.Legalizes) (ha : Handles os a) : Handles (o :: os) (i :: a) := by
  refine ⟨List.forall_mem_cons.2 ⟨⟨i, List.mem_cons_self, ho⟩, fun o' ho' => ?_⟩,
    List.forall_mem_cons.2 ⟨hi, ha.legalizes⟩⟩
  obtain ⟨j, hj, h⟩ := ha.names o' ho'
  exact ⟨j, List.mem_cons_of_mem i hj, h⟩

theorem Handles.isPseudo (h : Handles os a) (hplaced : Placed (a.map (Instr.relocate place))) (ho : o ∈ os) :
    (place o).isPseudo = false := by
  obtain ⟨i, hi, hmem⟩ := h.names o ho
  refine Operand.isPseudo_of_varsIn (hplaced _ (List.mem_map_of_mem hi) _ ?_)
  rw [Instr.operands_relocate]
  exact List.mem_map_of_mem hmem

theorem Handles.isLegalizable (h : Handles os a) (hplace : IsPlacing place)
    (hplaced : Placed (a.map (Instr.relocate place))) : ∀ i ∈ a.map (Instr.relocate place), i.IsLegalizable := by
  intro i' hi'
  obtain ⟨i, hi, rfl⟩ := List.mem_map.1 hi'
  exact h.legalizes i hi place hplace (hplaced _ hi')

end Handles

theorem selectRegisterArgs_handles : ∀ (vs : List Value) (index : Nat), index + vs.length ≤ 6 →
    (∀ v ∈ vs, ∃ t, v.HasTy T t) →
    Yields (selectRegisterArgs T index vs) (fun _ => False) (Handles (vs.map Operand.ofValue))
  | [], _, _, _ => .pure .nil
  | v :: vs, index, hlen, hty => by
    obtain ⟨⟨t, hv⟩, hvs⟩ := List.forall_mem_cons.1 hty
    rw [List.length_cons] at hlen
    obtain ⟨r, hr⟩ := Register.ofArgument?_of_lt (show index < 6 by omega)
    have hparam : Operand.ofParam index = .reg r := by rw [Operand.ofParam, hr]
    have hscratch := hparam ▸ (Operand.ofParam_plain index).2.1
    unfold selectRegisterArgs
    rw [Width.ofValue_eq hv, hparam]
    refine .bind (R := fun w => w = t.width) (.pure rfl) ?_
    rintro _ rfl
    refine .bind (selectRegisterArgs_handles vs (index + 1) (by omega) hvs) fun moves hmoves => .pure ?_
    exact hmoves.cons (by simp [Instr.operands]) (legalizes_mov hv rfl hscratch)

theorem selectPush_handles (hv : v.HasTy T t) :
    Yields (selectPush T v) (fun _ => False) (Handles [Operand.ofValue v]) := by
  have hdirect : (∀ text, v ≠ .str text) → Handles [Operand.ofValue v] [.push (.ofValue v)] := by
    intro hne
    have hpush : (Instr.push (.ofValue v)).Legalizes := legalizes_push fun place hplace => ⟨(hplace.ofValue v).1, by
      by_contra htext
      obtain ⟨text, rfl⟩ := (hplace.ofValue v).2 (by simpa using htext)
      exact hne text rfl⟩
    exact Handles.nil.cons (by simp [Instr.operands]) hpush
  have hthrough : Handles [Operand.ofValue v] [.mov t.width (.ofValue v) (.reg .ax), .push (.reg .ax)] := by
    have hpush : (Instr.push (.reg .ax)).Legalizes := legalizes_push fun place hplace => by
      rw [hplace.fixes _ rfl]
      exact ⟨rfl, rfl⟩
    exact (Handles.of_legalizes (by simpa using hpush)).cons (by simp [Instr.operands]) (legalizes_mov hv rfl rfl)
  unfold selectPush
  rw [Width.ofValue_eq hv]
  cases v with
  | int c | long c => exact .pure (hdirect (by simp))
  | str text => exact .pure hthrough
  | var x =>
    cases hw : t.width with
    | long => exact .pure (hw ▸ hthrough)
    | quad => exact .pure (hdirect (by simp))

theorem selectPushes_handles : ∀ vs : List Value, (∀ v ∈ vs, ∃ t, v.HasTy T t) →
    Yields (selectPushes T vs) (fun _ => False) (Handles (vs.map Operand.ofValue))
  | [], _ => .pure .nil
  | v :: vs, hty => by
    obtain ⟨⟨t, hv⟩, hvs⟩ := List.forall_mem_cons.1 hty
    refine .bind (selectPush_handles hv) fun push hpush => ?_
    exact .bind (selectPushes_handles vs hvs) fun pushes hpushes => .pure (hpush.append hpushes)

theorem selectPassing_handles {args : List Value} (hargs : ∀ v ∈ args, ∃ t, v.HasTy T t) :
    Yields (selectPassing T args) (fun _ => False) (Handles (args.map Operand.ofValue)) := by
  have htake : ∀ v ∈ args.take 6, ∃ t, v.HasTy T t := fun v hv => hargs v (List.mem_of_mem_take hv)
  have hdrop : ∀ v ∈ (args.drop 6).reverse, ∃ t, v.HasTy T t := fun v hv =>
    hargs v (List.mem_of_mem_drop (List.mem_reverse.1 hv))
  have hlength : 0 + (args.take 6).length ≤ 6 := by
    rw [List.length_take]
    omega
  refine .bind (selectRegisterArgs_handles _ 0 hlength htake) fun moves hmoves => ?_
  refine .bind (selectPushes_handles _ hdrop) fun pushes hpushes => .pure ?_
  have hall := ((Handles.of_legalizes (legalizes_adjustStack .sub (stackPadding (args.drop 6).length))).append
    hmoves).append hpushes
  refine ⟨fun o ho => hall.names o ?_, hall.legalizes⟩
  rw [← List.take_append_drop 6 args] at ho
  simpa [-List.take_append_drop] using ho

theorem selectParams_handles : ∀ (xs : List String) (index : Nat),
    (∀ x ∈ xs, ∃ t, (Value.var x).HasTy T t) →
    Yields (selectParams T index xs) (fun _ => False) (Handles (xs.map Operand.pseudo))
  | [], _, _ => .pure .nil
  | x :: xs, index, hty => by
    obtain ⟨⟨t, hx⟩, hxs⟩ := List.forall_mem_cons.1 hty
    have hwidth : Width.ofVar T x = .ok t.width := Width.ofValue_eq hx
    unfold selectParams
    rw [hwidth]
    refine .bind (R := fun w => w = t.width) (.pure rfl) ?_
    rintro _ rfl
    refine .bind (selectParams_handles xs (index + 1) hxs) fun fetch hfetches => .pure ?_
    exact hfetches.cons (by simp [Instr.operands]) (legalizes_fetch t.width index x)

/-- Code and its legal code, as long as control falls through. -/
theorem block_agrees {m₁ : State} : ∀ {code : List Instr} {m m' : State}, (∀ i ∈ code, i.IsLegalizable) →
    m.Agrees m' → block world m code = .ok (.next, m₁) →
    ∃ m₁', block world m' (code.flatMap legalCode) = .ok (.next, m₁') ∧ m₁.Agrees m₁'
  | [], _, m', _, hm, h => by
    cases h
    exact ⟨m', rfl, hm⟩
  | i :: code, m, m', hcode, hm, h => by
    obtain ⟨hi, hcode⟩ := List.forall_mem_cons.1 hcode
    have hstep := legalCode_agrees world hm hi
    rw [block] at h
    split at h
    · next m₂ hi₂ =>
      rw [hi₂] at hstep
      generalize hy : block world m' (legalCode i) = y at hstep
      cases hstep with
      | ok hm₂ =>
        obtain ⟨m₁', hblock, hm₁⟩ := block_agrees hcode hm₂ h
        exact ⟨m₁', (block_append_of_next hy _).trans hblock, hm₁⟩
    · next hne => exact absurd h (hne m₁)

end Legal

/-! ## The two sides of a call -/

/-- A function is called with as many arguments as it has parameters, and of their types. -/
structure IsCall (T : Khel.SymbolTable) (callee : String) (args : List Value) (dst : Value) (params : List String)
    (tys : List Ty) : Prop where
  known : (T.get? callee).any Symbol.isFunction = true
  passed : List.Forall₂ (fun v t => v.HasTy T t) args tys
  result : ∃ t, dst.HasTy T t
  declared : List.Forall₂ T.IsAutomatic params tys
  distinct : params.Nodup

/-- What the arguments are in one state, the parameters are in the other one: the four low bytes for a narrow type, and
all eight for the others. -/
def Arrive (world : World) (args : List Value) (params : List String) (tys : List Ty) (m : State)
    (place : Operand → Operand) (m' : State) (place' : Operand → Operand) : Prop :=
  ∀ (i : Nat) v x t, args[i]? = some v → params[i]? = some x → tys[i]? = some t →
    ∃ word : Word t.width, m.read world t.width (place (.ofValue v)) = some word ∧
      m'.read world t.width (place' (.pseudo x)) = some word

/-- The word that an argument has in the state, extended to eight bytes. -/
def State.wordOf (world : World) (T : Khel.SymbolTable) (place : Operand → Operand) (m : State) (v : Value) :
    BitVec 64 :=
  match Width.ofValue T v with
  | .ok w => ((m.read world w (place (.ofValue v))).getD 0).setWidth 64
  | .error _ => 0

/-- The width of a variable. -/
def widthOf (T : Khel.SymbolTable) (x : String) : Width := ((T.get? x).map fun s => s.ty.width).getD .long

theorem forall₂_getElem? {α β : Type} {R : α → β → Prop} {xs : List α} {ys : List β} (h : List.Forall₂ R xs ys)
    {j : Nat} {x : α} (hx : xs[j]? = some x) : ∃ y, ys[j]? = some y ∧ R x y := by
  obtain ⟨hlt, rfl⟩ := List.getElem?_eq_some_iff.1 hx
  have hlt' : j < ys.length := h.length_eq ▸ hlt
  exact ⟨ys[j], List.getElem?_eq_getElem hlt', h.get hlt hlt'⟩

section Calls

variable {world : World} {T : Khel.SymbolTable} {place place' : Operand → Operand} {m : State} {v : Value} {t : Ty}
  {x callee : String} {args : List Value} {dst : Value} {params : List String} {tys : List Ty}
  {passing fetch : List Instr}

theorem widthOf_eq (hx : T.IsAutomatic x t) : widthOf T x = t.width := by
  rw [widthOf, hx]
  rfl

theorem IsCall.length_eq (h : IsCall T callee args dst params tys) : params.length = args.length :=
  h.declared.length_eq.trans h.passed.length_eq.symm

theorem IsCall.arg (h : IsCall T callee args dst params tys) : ∀ v ∈ args, ∃ t, v.HasTy T t := by
  intro v hv
  obtain ⟨j, hj⟩ := List.getElem?_of_mem hv
  obtain ⟨t, _, ht⟩ := forall₂_getElem? h.passed hj
  exact ⟨t, ht⟩

theorem IsCall.param (h : IsCall T callee args dst params tys) : ∀ x ∈ params, ∃ t, T.IsAutomatic x t := by
  intro x hx
  obtain ⟨j, hj⟩ := List.getElem?_of_mem hx
  obtain ⟨t, _, ht⟩ := forall₂_getElem? h.declared hj
  exact ⟨t, ht⟩

theorem IsCall.hasTy (h : IsCall T callee args dst params tys) (hT : T.IsSound) :
    ∀ x ∈ params, ∃ t, (Value.var x).HasTy T t := fun x hx => (h.param x hx).imp fun _ ht => ht.hasTy hT

/-- A value is steady if it can be read, and nothing that passing arguments does can be seen there. -/
theorem Steady.of_read {top : BitVec 64} {n : Nat}
    (hread : ∀ t, v.HasTy T t → ∃ r, m.read world t.width (place (.ofValue v)) = some r)
    (hsame : ∀ t, v.HasTy T t → ∀ m', m.Spares top (-n) 0 m' →
      m'.read world t.width (place (.ofValue v)) = m.read world t.width (place (.ofValue v))) :
    Steady world T place m top n (m.wordOf world T place) v := by
  intro t hv m' hm'
  obtain ⟨r, hr⟩ := hread t hv
  have hw : t.width.bits ≤ 64 := by cases t.width <;> decide
  rw [hsame t hv m' hm', hr, State.wordOf, Width.ofValue_eq hv]
  dsimp only
  rw [hr, Option.getD_some, BitVec.setWidth_setWidth_of_le _ hw, BitVec.setWidth_eq]

/-- The call, the prologue and the moves of the callee bring every argument to its parameter. The arguments, the return
address and the saved frame pointer have to fit into memory. -/
theorem call_reaches_params (world : World) (m : State) (hT : T.IsSound)
    (hcall : IsCall T callee args dst params tys) (hroom : argumentBytes args + 16 ≤ 2 ^ 64)
    (hplace : IsPlacing place) (hplace' : IsPlacing place')
    (hpassing : selectPassing T args = .ok passing) (hfetch : selectParams T 0 params = .ok fetch)
    (hsteady : ∀ v ∈ args, Steady world T place m (m.reg .sp) (argumentBytes args) (m.wordOf world T place) v) :
    ∃ m₁, block world m (passing.map (Instr.relocate place)) = .ok (.next, m₁) ∧
      ∀ returnTo cells size,
        (∀ m' : State, m'.pseudo = cells → m'.IsReadyFor place' (widthOf T) params.length params) →
        ∃ m₂, block world (m₁.entered returnTo cells)
            (prologue ++ [allocation size] ++ fetch.map (Instr.relocate place')) = .ok (.next, m₂) ∧
          Arrive world args params tys m place m₂ place' := by
  have hwidths : ∀ x ∈ params, Width.ofVar T x = .ok (widthOf T x) := by
    intro x hx
    obtain ⟨t, ht⟩ := hcall.param x hx
    rw [widthOf_eq ht]
    exact Width.ofValue_eq (ht.hasTy hT)
  obtain ⟨m₁, hblock, _, _, hpasses⟩ := selectPassing_passes hplace hcall.arg hpassing
    (Nat.le_of_add_right_le hroom) hsteady
  refine ⟨m₁, hblock, fun returnTo cells size hready => ?_⟩
  obtain ⟨m₂, hblock₂, hpseudo, hread⟩ := prologue_enters hpasses hroom returnTo cells size
  -- The parameter with a number is to get the argument with that number.
  let words : Nat → BitVec 64 := fun i => (args[i]?.map (m.wordOf world T place)).getD 0
  have hsources : ∀ j x, params[j]? = some x →
      m₂.read world (widthOf T x) (.ofParam (0 + j)) = some ((words (0 + j)).setWidth (widthOf T x).bits) := by
    intro j x hx
    obtain ⟨t, ht, hauto⟩ := forall₂_getElem? hcall.declared hx
    obtain ⟨v, hv, hvt⟩ := forall₂_getElem? hcall.passed.flip ht
    rw [widthOf_eq hauto, Nat.zero_add, hread j v t hv hvt]
    simp only [words, hv, Option.map_some, Option.getD_some]
  obtain ⟨m₃, hblock₃, hparams, _⟩ := (selectParams_fetches hplace' params 0 hwidths (by omega)).of_ok hfetch m₂ words
    (hready m₂ hpseudo) hsources
  refine ⟨m₃, (block_append_of_next hblock₂ _).trans hblock₃, fun i v x t hv hx ht => ?_⟩
  obtain ⟨t', ht', hauto⟩ := forall₂_getElem? hcall.declared hx
  obtain ⟨t'', ht'', hvt⟩ := forall₂_getElem? hcall.passed hv
  cases ht.symm.trans ht'
  cases ht.symm.trans ht''
  have hparam := hparams i x hx
  rw [widthOf_eq hauto, Nat.zero_add] at hparam
  simp only [words, hv, Option.map_some, Option.getD_some] at hparam
  exact ⟨_, hsteady v (List.mem_of_getElem? hv) t hvt m (.of_eq rfl rfl rfl), hparam⟩

end Calls

/-! ## Selected code -/

/-- Every variable has a cell of the width of its type. -/
def CellsFit (T : Khel.SymbolTable) (cells : String → Cell) : Prop :=
  ∀ x t, (Value.var x).HasTy T t → ∃ c : Word t.width, cells x = .of t.width c

/-- The code comes to a call of the function, and from there, with an address to return to on the stack, the code of the
callee runs to its end and leaves a state with the property. -/
def Delivers (world : World) (m : State) (code : List Instr) (callee : String) (cells : String → Cell)
    (entry : List Instr) (post : State → Prop) : Prop :=
  ∃ m₁ rest, segment world m code = .ok (.call callee, m₁, rest) ∧ ∀ returnTo, ∃ m₂,
    segment world (m₁.entered returnTo cells) entry = .ok (.next, m₂, []) ∧ post m₂

section Selected

variable {world : World} {T : Khel.SymbolTable} {m : State} {callee : String} {args : List Value} {dst : Value}
  {params : List String} {tys : List Ty} {cells : String → Cell}

theorem isPlacing_id : IsPlacing id := ⟨fun _ _ => rfl, fun _ => .inl rfl⟩

@[simp] theorem Instr.relocate_id (i : Instr) : i.relocate id = i := by
  cases i <;> rfl

theorem map_relocate_id (code : List Instr) : code.map (Instr.relocate id) = code := by
  rw [funext Instr.relocate_id, List.map_id']

theorem segment_of_block {a : List Instr} {m₁ : State} (h : block world m a = .ok (.next, m₁)) :
    segment world m a = .ok (.next, m₁, []) := by
  have happend := segment_append_of_next [] h
  rw [List.append_nil] at happend
  exact happend

/-- Cells are out of reach for everything that passing arguments does. -/
theorem steady_cells (hm : CellsFit T m.pseudo) {v : Value} {top : BitVec 64} {n : Nat} :
    Steady world T id m top n (m.wordOf world T id) v := by
  refine .of_read (fun t hv => ?_) fun t hv m' hm' => ?_
  · cases v with
    | var x =>
      obtain ⟨c, hc⟩ := hm x t hv
      exact ⟨c, by simp [State.read, Operand.ofValue, hc]⟩
    | int _ | long _ | str _ => exact ⟨_, rfl⟩
  · cases v with
    | var x => simp only [id, Operand.ofValue, State.read, hm'.pseudo]
    | int _ | long _ | str _ => rfl

theorem isReadyFor_cells (hT : T.IsSound) (hcall : IsCall T callee args dst params tys) (hm : CellsFit T m.pseudo)
    (count : Nat) : m.IsReadyFor id (widthOf T) count params := by
  refine ⟨fun x hx => ?_, fun x _ j _ w => ?_, hcall.distinct.imp fun hne => ⟨.vars hne, .vars hne.symm⟩⟩
  · obtain ⟨t, ht⟩ := hcall.param x hx
    rw [widthOf_eq ht]
    exact hm x t (ht.hasTy hT)
  · unfold Operand.ofParam
    split
    · exact .varReg
    · exact .varStack

end Selected

/-! ## Places -/

/-- The slots lie within a frame, and below it there is room for `n` bytes, in which no static variable lies. -/
structure State.HasRoom (m : State) (world : World) (T : Khel.SymbolTable) (slots : Frame) (frame n : Nat) : Prop where
  sp : m.reg .sp = m.reg .bp - BitVec.ofNat 64 frame
  covers : -slots.bottom ≤ frame
  fits : frame + n ≤ 2 ^ 64
  apart : ∀ x s, T.get? x = some s → s.isStatic = true →
    Apart (world.data x).toBitVec s.ty.width.bytes (m.reg .sp - BitVec.ofNat 64 n) n

section Places

variable {world : World} {T : Khel.SymbolTable} {M : SymbolTable} {slots : Frame} {m m' : State} {callee : String}
  {args : List Value} {dst : Value} {params : List String} {tys : List Ty}

theorem State.Agrees.entered (h : m.Agrees m') (returnTo : BitVec 64) (cells : String → Cell) :
    (m.entered returnTo cells).Agrees (m'.entered returnTo cells) := by
  have hsp : m'.reg .sp = m.reg .sp := h.reg .sp (by decide) (by decide)
  have hpushed := (h.withReg .sp (m.reg .sp - 8)).storeBytes (m.reg .sp - 8) returnTo 8
  refine ⟨fun r h₁₀ h₁₁ => ?_, ?_, rfl, ?_⟩
  · simpa [State.entered, State.pushed, hsp] using hpushed.reg r h₁₀ h₁₁
  · simpa [State.entered, State.pushed, hsp] using hpushed.flags
  · simpa [State.entered, State.pushed, hsp] using hpushed.memory

/-- Slots lie above the stack pointer, and static variables elsewhere, so passing arguments does not reach them. -/
theorem steady_slots (hT : T.IsSound) (hM : M.IsFor T) (hslots : slots.IsLaidOut M)
    {frame n : Nat} (hm : m.HasRoom world T slots frame n) {v : Value}
    (hv : (slots.placeOf M (.ofValue v)).isPseudo = false) :
    Steady world T (slots.placeOf M) m (m.reg .sp) n (m.wordOf world T (slots.placeOf M)) v := by
  have hcovers := hm.covers
  have hfits := hm.fits
  refine .of_read (fun t _ => State.exists_read hv world m t.width) fun t ht m' hm' => ?_
  cases v with
  | int _ | long _ | str _ => rfl
  | var x =>
    rcases hslots.placeOf_var hM hT ht hv with ⟨s, hs, hst, rfl, hplace⟩ | ⟨d, _, hplace, _, hbottom, hend⟩
    · -- A byte of a static variable cannot be one of those below the stack pointer.
      simp only [Operand.ofValue, hplace, State.read]
      refine congrArg some (State.load_congr fun y hy => hm'.memory y fun d hlo hhi he => ?_)
      refine hm.apart x s hs hst y hy ?_
      have hdist := toNat_sub_of_offsets (m.reg .sp) d (-n)
      rw [← he, ← sub_ofNat] at hdist
      omega
    · have hbp : m.reg .bp + BitVec.ofInt 64 d = m.reg .sp + BitVec.ofInt 64 (frame + d) := by
        rw [hm.sp, sub_ofNat, add_ofInt_ofInt]
        congr 2
        omega
      simp only [Operand.ofValue, hplace, State.read, hm'.bp, hbp]
      exact congrArg some (hm'.load (.inr ⟨by omega, by omega⟩))

/-- The slots of parameters do not meet, and lie below everything that the caller has passed. -/
theorem isReadyFor_slots (hT : T.IsSound) (hM : M.IsFor T) (hslots : slots.IsLaidOut M)
    (hcall : IsCall T callee args dst params tys) (hroom : argumentBytes args + 16 - slots.bottom ≤ 2 ^ 64)
    (hplaced : ∀ x ∈ params, (slots.placeOf M (.pseudo x)).isPseudo = false) :
    m.IsReadyFor (slots.placeOf M) (widthOf T) params.length params := by
  have hslot : ∀ x ∈ params, ∃ d, slots.slots.get? x = some d ∧ slots.placeOf M (.pseudo x) = .stack d ∧
      M.get? x = some (.object (widthOf T x) false) ∧ slots.bottom ≤ d ∧ d + (widthOf T x).bytes ≤ 0 := by
    intro x hx
    obtain ⟨t, ht⟩ := hcall.param x hx
    rw [widthOf_eq ht]
    rcases hslots.placeOf_var hM hT (ht.hasTy hT) (hplaced x hx) with ⟨s, hs, hst, _⟩ | h
    · cases hs.symm.trans ht
      cases hst
    · exact h
  have hbytes : 8 * (args.length - 6) ≤ argumentBytes args := by
    rw [argumentBytes, List.length_drop]
    omega
  have hlength := hcall.length_eq
  refine ⟨fun x hx => ?_, fun x hx j hj w => ?_, ?_⟩
  · obtain ⟨d, _, hplace, _⟩ := hslot x hx
    rw [hplace]
    trivial
  · obtain ⟨d, _, hplace, _, hbottom, hend⟩ := hslot x hx
    rw [hplace]
    unfold Operand.ofParam
    split
    · exact .stackReg
    · next hj' =>
      have hj' := Register.le_of_ofArgument? hj'
      have hw : w.bytes ≤ 8 := by cases w <;> decide
      exact .below (by omega) (by omega)
  · have hapart : ∀ x ∈ params, ∀ y ∈ params, x ≠ y →
        Misses (slots.placeOf M (.pseudo x)) (widthOf T x) (slots.placeOf M (.pseudo y)) (widthOf T y) := by
      intro x hx y hy hne
      obtain ⟨d, hd, hplace, hobj, hbottom, hend⟩ := hslot x hx
      obtain ⟨d', hd', hplace', hobj', hbottom', hend'⟩ := hslot y hy
      rw [hplace, hplace']
      rcases hslots.apart x y d d' _ _ hne hd hd' hobj hobj' with h | h
      · exact .below h (by omega)
      · exact .above h (by omega)
    refine List.Pairwise.imp_of_mem (fun hx hy hne => ?_) hcall.distinct
    exact ⟨hapart _ hx _ hy hne, hapart _ hy _ hx hne.symm⟩

/-- Code over known variables is given places, which make up a frame. -/
theorem placeAll_places (hT : T.IsSound) (hM : M.IsFor T) (hslots : slots.IsLaidOut M) {code : List Instr}
    (hcode : CodeVarsIn T.IsObject code) : ∃ slots' : Frame,
      (placeAll M code).run slots = .ok (code.map (Instr.relocate (slots'.placeOf M)), slots') ∧ slots'.IsLaidOut M ∧
      Placed (code.map (Instr.relocate (slots'.placeOf M))) := by
  have hobjects : ∀ x, T.IsObject x → ∃ width isStatic, M.get? x = some (.object width isStatic) := by
    rintro x ⟨s, hs, hf⟩
    have hty : (Value.var x).HasTy T s.ty :=
      ⟨Option.map_eq_some_iff.2 ⟨s, hs, rfl⟩, (hT.get hs).kind.symm.trans hf⟩
    obtain ⟨s', _, _, hobj⟩ := hM.get hT hty
    exact ⟨_, _, hobj⟩
  obtain ⟨⟨code', slots'⟩, hrun, _⟩ :=
    Yields.exists_ok (placeAll_ensures (E := fun _ => False) hobjects code slots hcode)
  obtain ⟨_, hslots', rfl, hplaced⟩ := (placeAll_lays code hslots).of_ok hrun
  exact ⟨slots', hrun, hslots', hplaced⟩

theorem legalize_placed {code : List Instr} (h : Placed code) : legalize code = .ok (code.flatMap legalCode) := by
  obtain ⟨code', hcode, _⟩ := Yields.exists_ok (legalize_yields (E := fun _ => False) h)
  rw [hcode, (legalize_flatMap code).of_ok hcode]

end Places

/-! ## Every argument arrives -/

/-- The lines of a function are those of its prologue and of its code. -/
theorem function_lines (target : Target) (externals : List String) (f : Function) :
    Assembly.function target externals f = (do
      return [Assembly.Section.text.line, Assembly.symbolLine target f.name] ++
        (← Assembly.instrs target externals (prologue ++ f.code)) ++ [.blank]) := by
  have hpush : Assembly.instr target externals (.push (.reg .bp)) = pure [.op "pushq" ["%rbp"]] := rfl
  have hmov : Assembly.instr target externals (.mov .quad (.reg .sp) (.reg .bp)) =
      pure [.op "movq" ["%rsp", "%rbp"]] := rfl
  simp [Assembly.function, prologue, Assembly.instrs, hpush, hmov]

section Deliver

variable {world : World} {T : Khel.SymbolTable} {M M' : SymbolTable} {slots slots' : Frame} {m : State}
  {callee : String} {args : List Value} {dst : Value} {params : List String} {tys : List Ty}
  {passing after fetch : List Instr}

/-- Arguments that are passed in 32 bits fit into memory. -/
theorem argumentBytes_le (h : args.length ≤ Narrow.maxParams) : argumentBytes args + 16 ≤ 2 ^ 32 := by
  have hpadding : stackPadding (args.drop 6).length ≤ 8 := by
    unfold stackPadding
    split <;> omega
  unfold Narrow.maxParams at h
  rw [List.length_drop] at hpadding
  rw [argumentBytes, List.length_drop]
  omega

/-- While variables have cells of their own, every argument arrives. -/
theorem selected_delivers (hT : T.IsSound) (hcall : IsCall T callee args dst params tys)
    (hroom : argumentBytes args + 16 ≤ 2 ^ 64)
    (hpassing : selectPassing T args = .ok passing) (hfetch : selectParams T 0 params = .ok fetch)
    {cells : String → Cell} (hm : CellsFit T m.pseudo) (hcells : CellsFit T cells) (size : Int64) :
    Delivers world m (passing ++ .call callee :: after) callee cells (prologue ++ allocation size :: fetch) fun m' =>
      Arrive world args params tys m id m' id := by
  obtain ⟨m₁, hblock, henter⟩ := call_reaches_params world m hT hcall hroom isPlacing_id isPlacing_id hpassing hfetch
    fun v _ => steady_cells hm
  rw [map_relocate_id] at hblock henter
  refine ⟨m₁, after, (segment_append_of_next _ hblock).trans rfl, fun returnTo => ?_⟩
  obtain ⟨m₂, hblock₂, harrive⟩ := henter returnTo cells size fun m' hm' => isReadyFor_cells hT hcall (hm' ▸ hcells) _
  exact ⟨m₂, segment_of_block (by simpa using hblock₂), harrive⟩

/-- Every argument arrives once variables have places and code is legal. The scratch registers that legal code needs
carry no arguments, so only the code over places has to be followed. -/
theorem placed_delivers (hT : T.IsSound) (hcall : IsCall T callee args dst params tys) (hM : M.IsFor T)
    (hM' : M'.IsFor T) (hslots : slots.IsLaidOut M) (hslots' : slots'.IsLaidOut M')
    (hpassing : selectPassing T args = .ok passing) (hfetch : selectParams T 0 params = .ok fetch)
    (hplaced : Placed (passing.map (Instr.relocate (slots.placeOf M))))
    (hplaced' : Placed (fetch.map (Instr.relocate (slots'.placeOf M')))) {frame : Nat}
    (hm : m.HasRoom world T slots frame (argumentBytes args))
    (hroom : argumentBytes args + 16 - slots'.bottom ≤ 2 ^ 64) (cells : String → Cell) (size : Int64) :
    Delivers world m (slots.finish M (passing ++ .call callee :: after)) callee cells
      (prologue ++ (allocation size :: fetch.map (Instr.relocate (slots'.placeOf M'))).flatMap legalCode)
      fun m' => Arrive world args params tys m (slots.placeOf M) m' (slots'.placeOf M') := by
  have hhandles := (selectPassing_handles hcall.arg).of_ok hpassing
  have hhandles' := (selectParams_handles params 0 (hcall.hasTy hT)).of_ok hfetch
  have hbottom' := hslots'.bottom
  obtain ⟨m₁, hblock, henter⟩ :=
    call_reaches_params world m hT hcall (by omega) (slots.isPlacing M) (slots'.isPlacing M') hpassing hfetch
      fun v hv => steady_slots hT hM hslots hm (hhandles.isPseudo hplaced (List.mem_map_of_mem hv))
  -- Legal code leaves a state that differs in the scratch registers at most, and so does the way into the callee.
  obtain ⟨m₁', hblock', hm₁⟩ := block_agrees (hhandles.isLegalizable (slots.isPlacing M) hplaced)
    ⟨fun _ _ _ => rfl, rfl, rfl, rfl⟩ hblock
  refine ⟨m₁', slots.finish M after, ?_, fun returnTo => ?_⟩
  · rw [Frame.finish_append, Frame.finish_cons]
    exact (segment_append_of_next _ hblock').trans rfl
  · obtain ⟨m₂, hblock₂, harrive⟩ := henter returnTo cells size fun m' _ =>
      isReadyFor_slots hT hM' hslots' hcall hroom fun x hx => hhandles'.isPseudo hplaced' (List.mem_map_of_mem hx)
    have hlegal : ∀ i ∈ prologue ++ [allocation size] ++ fetch.map (Instr.relocate (slots'.placeOf M')),
        i.IsLegalizable := by
      refine List.forall_mem_append.2 ⟨List.forall_mem_append.2 ⟨by decide, ?_⟩,
        hhandles'.isLegalizable (slots'.isPlacing M') hplaced'⟩
      exact List.forall_mem_singleton.2 (isLegalizable_adjust .sub size)
    obtain ⟨m₂', hblock₂', hm₂⟩ := block_agrees hlegal (hm₁.entered returnTo cells) hblock₂
    refine ⟨m₂', segment_of_block ?_, fun i v x t hv hx ht => ?_⟩
    · rw [← hblock₂', List.append_assoc, List.flatMap_append]
      rfl
    · obtain ⟨word, hsource, htarget⟩ := harrive i v x t hv hx ht
      exact ⟨word, hsource, (hm₂.read ((slots'.isPlacing M').ofValue (.var x)).1).trans htarget⟩

end Deliver

/-- Arguments of every kind; the last three of them travel on the stack. -/
def ledgerArgs : List Value :=
  [.int 1, .long 5000000000, .str "text", .var "n", .var "total", .int (-6), .var "n", .var "total", .str "more"]

def ledgerTypes : List Ty := [.int32, .int64, .string, .int32, .int64, .int32, .int32, .int64, .string]

def ledgerParams : List String := ["a", "b", "c", "d", "e", "f", "g", "h", "i"]

/-- What is known of the names: `total` is static. -/
def ledgerSymbols : Khel.SymbolTable :=
  ⟨[("ledger", ⟨.fn ledgerTypes .int32, .function true true⟩), ("n", ⟨.int32, .automatic⟩),
    ("total", ⟨.int64, .static .tentative false⟩)] ++
    (ledgerParams.zip ledgerTypes).map fun e => (e.1, ⟨e.2, .automatic⟩)⟩

theorem ledgerSymbols_isSound : ledgerSymbols.IsSound := by
  have hvalues : ∀ e ∈ ledgerSymbols.entries.drop 1, e.2.isFunction = false ∧ e.2.ty.isFunction = false := by decide
  refine List.forall_mem_cons.2 ⟨⟨rfl, ?_⟩, fun e he => Symbol.isSound_of_value (hvalues e he).1 (hvalues e he).2⟩
  rintro _ _ ⟨⟩
  rfl

theorem isCall_ledger : IsCall ledgerSymbols "ledger" ledgerArgs (.var "n") ledgerParams ledgerTypes :=
  ⟨rfl, by decide, ⟨.int32, by decide⟩, by decide, by decide⟩

def ledgerWorld : World := ⟨fun text => text.length.toInt64, fun _ => 32, fun _ _ s => (0, s)⟩

/-- A frame of sixteen bytes, and memory in which every byte tells its address. -/
def ledgerState : State where
  reg := fun r => if r = .sp then 65520 else 65536
  flags := none
  pseudo := fun x => .of (widthOf ledgerSymbols x) 7
  memory := fun a => a.setWidth 8

theorem cellsFit_ledger : CellsFit ledgerSymbols ledgerState.pseudo := by
  rintro x t ⟨ht, _⟩
  obtain ⟨s, hs, rfl⟩ := Option.map_eq_some_iff.1 ht
  have hwidth : widthOf ledgerSymbols x = s.ty.width := by simp [widthOf, hs]
  exact ⟨7, congrArg (fun w => Cell.of w 7) hwidth⟩

end Machine

end Khel
