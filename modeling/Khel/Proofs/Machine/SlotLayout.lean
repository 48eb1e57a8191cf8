import Khel.Proofs.Machine.Narrow
import Mathlib.Data.List.Dedup
import Mathlib.Data.List.Perm.Subperm

/-!
# The layout of a frame

A variable costs a frame eight bytes at most: its own size, and the gap above it that aligns it. So a frame is not
larger than eight bytes for each variable that needs a slot, and the arithmetic of slot assignment does not leave the
range of 32 bits unless there are hundreds of millions of them.

* `Machine.slotVariables`: the variables of a piece of code that need a slot.
* `Machine.Frame.IsTight`: what bounds a frame while slots are given out.
* `Machine.Placing.Narrows`: a step, and what it is in 32 bits.
* `Machine.Function.LaidOutAs`: one function before and after its variables have places.
* `Machine.Program.assignSlots_layout`: the places of the variables of every function.
-/

namespace Khel.Machine

/-! ## The variables of a piece of code -/

/-- The variable that an operand is. -/
def Operand.pseudo? : Operand → Option String
  | .pseudo x => some x
  | .imm _ | .reg _ | .stack _ | .data _ | .str _ => none

/-- The variables of a piece of code, as often as they occur. -/
def pseudos (code : List Instr) : List String := (code.flatMap Instr.operands).filterMap Operand.pseudo?

/-- Does the name stand for an object that is not static? -/
def SymbolTable.needsSlot (M : SymbolTable) (x : String) : Bool :=
  match M.get? x with
  | some (.object _ isStatic) => !isStatic
  | _ => false

/-- The variables of a piece of code that need a slot, each of them once. -/
def slotVariables (M : SymbolTable) (code : List Instr) : List String := ((pseudos code).filter M.needsSlot).dedup

theorem mem_pseudos {x : String} {code : List Instr} :
    x ∈ pseudos code ↔ ∃ i ∈ code, .pseudo x ∈ i.operands := by
  simp only [pseudos, List.mem_filterMap, List.mem_flatMap]
  constructor
  · intro h
    obtain ⟨o, ⟨i, hi, ho⟩, hx⟩ := h
    cases o <;> cases hx
    exact ⟨i, hi, ho⟩
  · intro h
    obtain ⟨i, hi, hx⟩ := h
    exact ⟨.pseudo x, ⟨i, hi, hx⟩, rfl⟩

theorem codeVarsIn_slotVariables (M : SymbolTable) (code : List Instr) :
    CodeVarsIn (fun x => M.needsSlot x = true → x ∈ slotVariables M code) code := by
  intro i hi o ho x hx hneeds
  subst hx
  rw [slotVariables, List.mem_dedup, List.mem_filter]
  exact ⟨mem_pseudos.2 ⟨i, hi, ho⟩, hneeds⟩

/-! ## How far a frame reaches -/

/-- The frame has slots for some of the variables `xs`, and reaches down eight bytes at most for each of them. -/
structure Frame.IsTight (xs : List String) (frame : Frame) : Prop where
  nodup : frame.slots.names.Nodup
  subset : ∀ x ∈ frame.slots.names, x ∈ xs
  room : -8 * (frame.slots.names.length : Int) ≤ frame.bottom

namespace Frame.IsTight

variable {xs : List String} {frame : Frame}

theorem empty (xs : List String) : IsTight xs {} := by
  constructor
  · exact List.nodup_nil
  · intro x hx
    cases hx
  · exact Int.le_refl 0

theorem room_le (h : frame.IsTight xs) : -8 * (xs.length : Int) ≤ frame.bottom := by
  have hlen := (List.subperm_of_subset h.nodup h.subset).length_le
  have hroom := h.room
  omega

/-- Aligning does not pass a multiple of eight. -/
theorem le_alignDown {b : Int} {n : Nat} (h : -8 * (n : Int) ≤ b) (w : Width) :
    -8 * (n : Int) ≤ alignDown b w.alignment := by
  unfold alignDown
  cases w with
  | long =>
    show -8 * (n : Int) ≤ b - b % 4
    omega
  | quad =>
    show -8 * (n : Int) ≤ b - b % 8
    omega

/-- A slot for one more variable. -/
theorem set (h : frame.IsTight xs) {x : String} (hx : x ∈ xs) (hnew : frame.slots.get? x = none) (w : Width) :
    let offset := alignDown frame.bottom w.alignment - w.bytes
    IsTight xs { bottom := offset, slots := frame.slots.set x offset } := by
  intro offset
  have hmem : x ∉ frame.slots.names := by
    rw [Table.mem_names_iff, hnew]
    exact Bool.false_ne_true
  have hnames : (frame.slots.set x offset).names = frame.slots.names ++ [x] := by
    rw [Table.names_set, if_neg hmem]
  have hlow := le_alignDown h.room w
  have hbytes : (w.bytes : Int) ≤ 8 := by cases w <;> decide
  constructor
  · exact Table.nodup_names_set _ _ _ h.nodup
  · intro y hy
    rw [hnames, List.mem_append, List.mem_singleton] at hy
    rcases hy with hy | rfl
    · exact h.subset y hy
    · exact hx
  · show -8 * ((frame.slots.set x offset).names.length : Int) ≤ offset
    rw [hnames, List.length_append, List.length_singleton]
    omega

end Frame.IsTight

/-! ## Slot assignment in 32 bits -/

/-- The room that slots for `xs` may take, rounded up, has a size that 32 bits hold. -/
def Narrow.Suffices (xs : List String) : Prop := 8 * (xs.length : Int) ≤ greatest - 15

/-- Tight frames stay tight, and frames only grow. In 32 bits the step does the same if the frame it leads to fits. -/
def Placing.Narrows {α : Type} (xs : List String) (m : Placing α) (n : Narrow.Placing α) : Prop :=
  ∀ frame : Frame, frame.bottom ≤ 0 → Ensures m frame (fun _ => True) fun a frame' =>
    (frame.IsTight xs → frame'.IsTight xs) ∧ frame'.bottom ≤ frame.bottom ∧ (Narrow.least ≤ frame.bottom →
      n.run frame = if Narrow.least ≤ frame'.bottom then some (a, frame') else none)

namespace Placing.Narrows

variable {α β : Type} {xs : List String}

theorem pure (a : α) : Narrows xs (Pure.pure a) (Pure.pure a) := by
  intro frame _
  exact Ensures.pure ⟨fun h => h, Int.le_refl _, fun hfits => (if_pos hfits).symm⟩

theorem throw {e : Fault} {n : Narrow.Placing α} : Narrows xs (MonadExcept.throw e) n :=
  fun _ _ => Ensures.throw trivial

theorem bind {m : Placing α} {n : Narrow.Placing α} {f : α → Placing β} {g : α → Narrow.Placing β}
    (hm : Narrows xs m n) (hf : ∀ a, Narrows xs (f a) (g a)) : Narrows xs (m >>= f) (n >>= g) := by
  intro frame hbottom
  apply Ensures.bind (hm frame hbottom)
  intro a frame₁ h₁
  obtain ⟨htight, hle, hsame⟩ := h₁
  apply (hf a frame₁ (Int.le_trans hle hbottom)).mono
  intro b frame₂ h₂
  obtain ⟨htight₂, hle₂, hsame₂⟩ := h₂
  refine ⟨fun h => htight₂ (htight h), Int.le_trans hle₂ hle, fun hfits => ?_⟩
  rw [StateT.run_bind, hsame hfits]
  by_cases hfits₁ : Narrow.least ≤ frame₁.bottom
  · rw [if_pos hfits₁]
    exact hsame₂ hfits₁
  · -- A frame that does not fit is not made to fit by more slots.
    rw [if_neg hfits₁, if_neg (by omega)]
    rfl

end Placing.Narrows

section Narrows

open Placing

variable {xs : List String} {M : SymbolTable}

theorem slotFor_narrows {x : String} (hx : x ∈ xs) (w : Width) :
    Narrows xs (slotFor x w) (Narrow.slotFor x w) := by
  intro frame hbottom
  apply Ensures.get_bind
  split
  · next offset hslot =>
    refine Ensures.pure ⟨fun h => h, Int.le_refl _, fun hfits => ?_⟩
    simp [Narrow.slotFor, hslot, if_pos hfits]
  · next hslot =>
    apply Ensures.set_bind
    refine Ensures.pure ⟨fun h => h.set hx hslot w, ?_, fun _ => Narrow.slotFor_eq hbottom hslot w⟩
    have hdown := alignDown_le frame.bottom w
    show alignDown frame.bottom w.alignment - w.bytes ≤ frame.bottom
    omega

theorem Operand.place_narrows {o : Operand} (ho : o.VarsIn fun x => M.needsSlot x = true → x ∈ xs) :
    Narrows xs (o.place M) (Narrow.place M o) := by
  cases o with
  | pseudo x =>
    rw [Operand.place, Narrow.place]
    cases h : M.get? x with
    | none => exact .throw
    | some s =>
      cases s with
      | function _ _ => exact .throw
      | object w isStatic =>
        cases isStatic with
        | true => exact .pure _
        | false =>
          have hx : x ∈ xs := ho x rfl (by simp [SymbolTable.needsSlot, h])
          exact .bind (slotFor_narrows hx w) fun offset => .pure _
  | imm _ | reg _ | stack _ | data _ | str _ => exact .pure _

theorem Instr.place_narrows {i : Instr} (hi : i.VarsIn fun x => M.needsSlot x = true → x ∈ xs) :
    Narrows xs (i.mapOperands (Operand.place M)) (i.mapOperands (Narrow.place M)) := by
  have hplace : ∀ o ∈ i.operands, Narrows xs (o.place M) (Narrow.place M o) := fun o ho =>
    Operand.place_narrows (hi o ho)
  cases i with
  | mov _ a b | movsx a b | binary _ _ a b | cmp _ a b =>
    apply Narrows.bind (hplace a (by simp [Instr.operands]))
    intro a'
    exact .bind (hplace b (by simp [Instr.operands])) fun b' => .pure _
  | unary _ _ a | idiv _ a | setcc _ a | push a =>
    exact .bind (hplace a (by simp [Instr.operands])) fun a' => .pure _
  | cdq _ | jmp _ | jcc _ _ | label _ | call _ | ret => exact .pure _

theorem placeAll_narrows (code : List Instr) (hcode : CodeVarsIn (fun x => M.needsSlot x = true → x ∈ xs) code) :
    Narrows xs (placeAll M code) (Narrow.placeAll M code) := by
  induction code with
  | nil => exact .pure _
  | cons i is ih =>
    obtain ⟨hi, his⟩ := codeVarsIn_cons.1 hcode
    apply Narrows.bind (Instr.place_narrows hi)
    intro i'
    exact .bind (ih his) fun is' => .pure _

/-- Places found without bounds are found in 32 bits if the frame fits. -/
theorem Narrow.placeAll_eq {code placed : List Instr} {frame frame' : Frame} (hbottom : frame.bottom ≤ 0)
    (hfits : least ≤ frame.bottom) (h : (Machine.placeAll M code).run frame = .ok (placed, frame')) :
    (placeAll M code).run frame = if least ≤ frame'.bottom then some (placed, frame') else none :=
  ((placeAll_narrows code (codeVarsIn_slotVariables M code) frame hbottom).of_ok h).2.2 hfits

/-- A frame has at most eight bytes for each variable with a slot, and its size is found in 32 bits if that many bytes
and fifteen more are. -/
theorem Function.assignSlots_narrows (M : SymbolTable) (f : Function) :
    Yields (f.assignSlots M) (fun _ => True) fun r => 0 ≤ r.2 ∧ r.2 ≤ 8 * ((slotVariables M f.code).length : Int) ∧
      (Narrow.Suffices (slotVariables M f.code) → Narrow.assignSlots M f = some r) := by
  apply Yields.bind (placeAll_narrows f.code (codeVarsIn_slotVariables M f.code) {} (Int.le_refl 0))
  intro r hr
  obtain ⟨htight, hbottom, hsame⟩ := hr
  have hroom := (htight (.empty _)).room_le
  have hbottom : r.2.bottom ≤ 0 := hbottom
  have hsize : (r.2.bottom.natAbs : Int) = -r.2.bottom := by omega
  apply Yields.pure
  show 0 ≤ (r.2.bottom.natAbs : Int) ∧ (r.2.bottom.natAbs : Int) ≤ _ ∧ _
  rw [hsize]
  refine ⟨by omega, by omega, fun hxs => ?_⟩
  unfold Narrow.Suffices Narrow.greatest at hxs
  have hfits : Narrow.least ≤ r.2.bottom := by
    unfold Narrow.least
    omega
  have hfit : Narrow.fit? (-r.2.bottom) = some (-r.2.bottom) :=
    Narrow.fit?_of_le (by unfold Narrow.least; omega) (by unfold Narrow.greatest; omega)
  have hrun := hsame (by decide)
  rw [if_pos hfits] at hrun
  rw [Narrow.assignSlots, hrun]
  show (Narrow.fit? (-r.2.bottom) >>= _) = _
  rw [hfit]
  rfl

end Narrows

/-! ## Slots given out once -/

/-- Code without variables is placed as it is. -/
theorem placeAll_of_placed (M : SymbolTable) {code : List Instr} (hcode : Placed code) (frame : Frame) :
    (placeAll M code).run frame = .ok (code, frame) := by
  have hplace : ∀ o : Operand, (o.VarsIn fun _ => False) → o.place M = pure o := by
    intro o ho
    cases o with
    | pseudo x => exact (ho x rfl).elim
    | imm _ | reg _ | stack _ | data _ | str _ => rfl
  induction code with
  | nil => rfl
  | cons i is ih =>
    obtain ⟨hi, his⟩ := codeVarsIn_cons.1 hcode
    have hinstr : i.mapOperands (Operand.place M) = pure i := by
      cases i with
      | mov _ a b | movsx a b | binary _ _ a b | cmp _ a b =>
        simp [Instr.mapOperands, hplace a (hi a (by simp [Instr.operands])), hplace b (hi b (by simp [Instr.operands]))]
      | unary _ _ a | idiv _ a | setcc _ a | push a =>
        simp [Instr.mapOperands, hplace a (hi a (by simp [Instr.operands]))]
      | cdq _ | jmp _ | jcc _ _ | label _ | call _ | ret => rfl
    simp [placeAll, hinstr, ih his]

theorem Function.assignSlots_of_placed (M : SymbolTable) {f : Function} (hf : Placed f.code) :
    f.assignSlots M = .ok (f, 0) := by
  rw [Function.assignSlots, placeAll_of_placed M hf]
  rfl

/-! ## Layouts -/

/-- Puts every variable where `place` says, and leaves other operands. -/
def Operand.putAt (place : String → Operand) : Operand → Operand
  | .pseudo x => place x
  | o => o

/-- How slot assignment makes `f'` of `f`, with a frame of the given size. -/
structure Function.LaidOutAs (M : SymbolTable) (f f' : Function) (size : Int) (place : String → Operand) : Prop where
  /-- All occurrences of a variable are replaced by its place, and nothing else is changed. -/
  replaced : f' = { f with code := f.code.map (Instr.relocate (Operand.putAt place)) }
  placed : Placed f'.code
  /-- A static variable is found by its name, and any other one in the frame, at a multiple of its size. -/
  within : ∀ x ∈ pseudos f.code, ∃ w, M.get? x = some (.object w true) ∧ place x = .data x ∨
    M.get? x = some (.object w false) ∧ ∃ offset, place x = .stack offset ∧ -size ≤ offset ∧
      offset + w.bytes ≤ 0 ∧ (w.bytes : Int) ∣ offset
  /-- No two slots share a byte. -/
  apart : ∀ x ∈ pseudos f.code, ∀ y ∈ pseudos f.code, x ≠ y → ∀ w w' offset offset',
    M.get? x = some (.object w false) → M.get? y = some (.object w' false) →
    place x = .stack offset → place y = .stack offset' →
    offset + w.bytes ≤ offset' ∨ offset' + w'.bytes ≤ offset
  room : size ≤ 8 * ((slotVariables M f.code).length : Int)
  /-- The offsets and the size are found in 32 bits, and the size can be rounded up. -/
  narrow : Narrow.Suffices (slotVariables M f.code) →
    Narrow.assignSlots M f = some (f', size) ∧ Narrow.roundUp16 size = some (roundUp16 size)
  /-- A second run changes nothing and gives out no slot. -/
  again : ∀ M' : SymbolTable, f'.assignSlots M' = .ok (f', 0)

section Layout

variable {M : SymbolTable} {f f' : Function} {size : Int}

theorem Frame.putAt_placeOf (M : SymbolTable) (frame : Frame) :
    Operand.putAt (fun x => frame.placeOf M (.pseudo x)) = frame.placeOf M := by
  funext o
  cases o <;> rfl

/-- A variable of placed code is a static variable or has a slot. -/
theorem Frame.slot_of_placed {frame : Frame} {x : String}
    (hx : (frame.placeOf M (.pseudo x)).VarsIn fun _ => False) :
    ∃ w, M.get? x = some (.object w true) ∧ frame.placeOf M (.pseudo x) = .data x ∨
      M.get? x = some (.object w false) ∧ ∃ offset, frame.slots.get? x = some offset ∧
        frame.placeOf M (.pseudo x) = .stack offset := by
  cases hM : M.get? x with
  | none => simp [Frame.placeOf, hM] at hx
  | some s =>
    cases s with
    | function _ _ => simp [Frame.placeOf, hM] at hx
    | object w isStatic =>
      cases isStatic with
      | true => exact ⟨w, .inl ⟨rfl, by simp [Frame.placeOf, hM]⟩⟩
      | false =>
        cases hslot : frame.slots.get? x with
        | none => simp [Frame.placeOf, hM, hslot] at hx
        | some offset => exact ⟨w, .inr ⟨rfl, offset, rfl, by simp [Frame.placeOf, hM, hslot]⟩⟩

theorem Function.assignSlots_laysOut (h : f.assignSlots M = .ok (f', size)) : ∃ place, f.LaidOutAs M f' size place := by
  obtain ⟨frame, hframe, hsize, hplaced, hf'⟩ := (Function.assignSlots_lays M f).of_ok h
  obtain ⟨hpos, hroom, hnarrow⟩ := (Function.assignSlots_narrows M f).of_ok h
  have hvar : ∀ x ∈ pseudos f.code, (frame.placeOf M (.pseudo x)).VarsIn fun _ => False := by
    intro x hx
    obtain ⟨i, hi, ho⟩ := mem_pseudos.1 hx
    subst hf'
    apply hplaced (i.relocate (frame.placeOf M)) (List.mem_map_of_mem hi)
    rw [Instr.operands_relocate]
    exact List.mem_map_of_mem ho
  have hslot : ∀ x ∈ pseudos f.code, ∀ w offset, M.get? x = some (.object w false) →
      frame.placeOf M (.pseudo x) = .stack offset → frame.slots.get? x = some offset := by
    intro x hx w offset hM ho
    obtain ⟨_, ⟨hM', _⟩ | ⟨_, _, hs, hp⟩⟩ := frame.slot_of_placed (hvar x hx)
    · cases hM.symm.trans hM'
    · cases ho.symm.trans hp
      exact hs
  refine ⟨fun x => frame.placeOf M (.pseudo x), ?_, hplaced, ?_, ?_, hroom, ?_, ?_⟩
  · rw [Frame.putAt_placeOf]
    exact hf'
  · intro x hx
    obtain ⟨w, hstatic | ⟨hM, offset, hs, hp⟩⟩ := frame.slot_of_placed (hvar x hx)
    · exact ⟨w, .inl hstatic⟩
    · obtain ⟨w', hM', hlow, hhigh, hdvd⟩ := hframe.slot x offset hs
      cases hM.symm.trans hM'
      exact ⟨w, .inr ⟨hM, offset, hp, by omega, hhigh, hdvd⟩⟩
  · intro x hx y hy hne w w' offset offset' hMx hMy hpx hpy
    exact hframe.apart x y offset offset' w w' hne (hslot x hx w offset hMx hpx) (hslot y hy w' offset' hMy hpy) hMx hMy
  · intro hxs
    constructor
    · exact hnarrow hxs
    · rw [Narrow.roundUp16_eq hpos, if_pos (Int.le_trans hroom hxs)]
  · intro M'
    exact Function.assignSlots_of_placed M' hplaced

end Layout

/-- Every function of a program is laid out in a frame of its own, whose size is recorded, and the rest of the program
is left. -/
theorem Program.assignSlots_layout (p p' : Program) (M M' : SymbolTable) (h : p.assignSlots M = .ok (p', M')) :
    p'.statics = p.statics ∧ p'.externals = p.externals ∧
      List.Forall₂ (fun f f' => ∃ size place, M'.frameSize? f.name = some size ∧ f.LaidOutAs M f' size place)
        p.functions p'.functions := by
  have hp : Yields (p.assignSlots M) (fun _ => True) fun r => r.1.statics = p.statics ∧
      r.1.externals = p.externals ∧ List.Forall₂
        (fun f f' => ∃ size, r.2.frameSize? f.name = some size ∧ f.assignSlots M = .ok (f', size)) p.functions
        r.1.functions := by
    apply Yields.bind (assignAllSlots_each p.functions M)
    intro r hr
    exact .pure ⟨rfl, rfl, hr.2.2⟩
  obtain ⟨hstatics, hexternals, hfs⟩ := hp.of_ok h
  refine ⟨hstatics, hexternals, hfs.imp fun f f' hf => ?_⟩
  obtain ⟨size, hsize, hf⟩ := hf
  obtain ⟨place, hplace⟩ := Function.assignSlots_laysOut hf
  exact ⟨size, place, hsize, hplace⟩

/-- Two variables of four bytes, one of eight bytes between them and a static one. -/
theorem Program.assignSlots_layout_mixed :
    let f : Function := ⟨"f", true, [.mov .long (.imm 1) (.pseudo "a"), .mov .quad (.pseudo "s") (.pseudo "b"),
      .mov .long (.pseudo "a") (.pseudo "c"), .push (.pseudo "b"), .ret]⟩
    let f' : Function := ⟨"f", true, [.mov .long (.imm 1) (.stack (-4)), .mov .quad (.data "s") (.stack (-16)),
      .mov .long (.stack (-4)) (.stack (-20)), .push (.stack (-16)), .ret]⟩
    let M : SymbolTable := ⟨[("f", .function true none), ("a", .object .long false), ("s", .object .quad true),
      ("b", .object .quad false), ("c", .object .long false)]⟩
    ∃ place, f.LaidOutAs M f' 20 place := by
  intro f f' M
  have h := (Program.assignSlots_layout { functions := [f] } { functions := [f'] } M
    (M.set "f" (.function true (some 20))) (by rfl)).2.2
  obtain ⟨size, place, hsize, hplace⟩ := (List.forall₂_cons.1 h).1
  cases hsize
  exact ⟨place, hplace⟩

end Khel.Machine
