import Khel.Proofs.Machine.Slots

/-!
# Offsets in 32 bits

Offsets from the frame pointer and the sizes of frames are computed in 32 bits. This is the same arithmetic with a check
at every step: it gives what arithmetic without bounds gives as long as that fits, and nothing otherwise.

* `Machine.Narrow.fit?`: a value, if 32 bits hold it.
* `Machine.Narrow.selectParams_eq`: parameters are fetched in 32 bits if there are not too many of them.
* `Machine.Narrow.roundUp16_eq`: the size of a frame is rounded up if there is room above it.
* `Machine.Narrow.slotFor_eq`: a new slot is given out if its offset fits.
-/

namespace Khel.Machine.Narrow

/-- The least value that 32 bits hold. -/
def least : Int := -2147483648

/-- The greatest value that 32 bits hold. -/
def greatest : Int := 2147483647

/-- The value, if 32 bits hold it. -/
def fit? (v : Int) : Option Int := if least ≤ v ∧ v ≤ greatest then some v else none

theorem fit?_of_le {v : Int} (hl : least ≤ v) (hg : v ≤ greatest) : fit? v = some v := if_pos ⟨hl, hg⟩

theorem fit?_of_nonneg {v : Int} (h₀ : 0 ≤ v) : fit? v = if v ≤ greatest then some v else none := by
  have hl : least ≤ v := Int.le_trans (by decide) h₀
  simp only [fit?, hl, true_and]

theorem fit?_of_nonpos {v : Int} (h₀ : v ≤ 0) : fit? v = if least ≤ v then some v else none := by
  have hg : v ≤ greatest := Int.le_trans h₀ (by decide)
  simp only [fit?, hg, and_true]

/-! ## Parameters -/

/-- Where a function finds a parameter, counted from zero. The index is cut to 32 bits. -/
def ofParam (index : Nat) : Option Operand :=
  match Register.ofArgument? index with
  | some r => some (.reg r)
  | none => do
    let onStack ← fit? ((Int32.ofNat index).toInt - 6)
    let bytes ← fit? (8 * onStack)
    return .stack (← fit? (16 + bytes))

/-- Moves parameters to their variables, counting from `index`. -/
def selectParams (T : Khel.SymbolTable) (index : Nat) : List String → Option (List Instr)
  | [] => return []
  | x :: xs => do
    let width ← (Width.ofVar T x).toOption
    return .mov width (← ofParam index) (.pseudo x) :: (← selectParams T (index + 1) xs)

/-- So many parameters have offsets that 32 bits hold. -/
def maxParams : Nat := 268435460

theorem ofParam_eq {index : Nat} (h : index ≤ maxParams) :
    ofParam index = if index < maxParams then some (Operand.ofParam index) else none := by
  unfold maxParams at h ⊢
  cases hreg : Register.ofArgument? index with
  | some r =>
    have hlt : index < 268435460 := Nat.lt_of_le_of_ne h (by rintro rfl; cases hreg)
    simp only [ofParam, Operand.ofParam, hreg, if_pos hlt]
  | none =>
    have hsix := Register.le_of_ofArgument? hreg
    have hindex : (Int32.ofNat index).toInt = index := Int32.toInt_ofNat_of_lt (by omega)
    have honStack : fit? ((index : Int) - 6) = some ((index : Int) - 6) :=
      fit?_of_le (by unfold least; omega) (by unfold greatest; omega)
    have hbytes : fit? (8 * ((index : Int) - 6)) = some (8 * ((index : Int) - 6)) :=
      fit?_of_le (by unfold least; omega) (by unfold greatest; omega)
    have hoffset : fit? (16 + 8 * ((index : Int) - 6)) =
        if index < 268435460 then some (16 + 8 * ((index : Int) - 6)) else none := by
      have hlt : 16 + 8 * ((index : Int) - 6) ≤ greatest ↔ index < 268435460 := by
        unfold greatest
        omega
      rw [fit?_of_nonneg (by omega)]
      simp only [hlt]
    simp only [ofParam, Operand.ofParam, hreg, hindex, honStack, hbytes, hoffset, Option.bind_eq_bind, Option.bind_some]
    split <;> rfl

example : ofParam 268435459 = some (.stack 2147483640) ∧ ofParam 268435460 = none := by decide

theorem selectParams_eq_of_le {T : Khel.SymbolTable} : ∀ (xs : List String) {index : Nat} {fetch : List Instr},
    index ≤ maxParams → Machine.selectParams T index xs = .ok fetch →
    selectParams T index xs = if index + xs.length ≤ maxParams then some fetch else none
  | [], index, fetch, hle, h => by
    cases h
    rw [List.length_nil, Nat.add_zero, if_pos hle]
    rfl
  | x :: xs, index, fetch, hle, h => by
    obtain ⟨width, hwidth, h⟩ := Except.exists_of_bind h
    obtain ⟨rest, hrest, h⟩ := Except.exists_of_bind h
    cases h
    rw [selectParams, hwidth, ofParam_eq hle, List.length_cons]
    by_cases hlt : index < maxParams
    · -- The parameter has an offset, so the others decide.
      have ih := selectParams_eq_of_le xs hlt hrest
      rw [show index + (xs.length + 1) = index + 1 + xs.length by omega, if_pos hlt, ih]
      split <;> rfl
    · rw [if_neg hlt, if_neg (by omega)]
      rfl

/-- Parameters are fetched in 32 bits as without bounds, if there are not too many of them. -/
theorem selectParams_eq {T : Khel.SymbolTable} {xs : List String} {fetch : List Instr}
    (h : Machine.selectParams T 0 xs = .ok fetch) :
    selectParams T 0 xs = if xs.length ≤ maxParams then some fetch else none := by
  have heq := selectParams_eq_of_le xs (Nat.zero_le _) h
  rwa [Nat.zero_add] at heq

/-! ## Frames -/

/-- The greatest multiple of `n` that is not above `offset`. -/
def alignDown (offset : Int) (n : Nat) : Option Int := do
  let rest ← fit? (offset % n)
  fit? (offset - rest)

/-- The least multiple of sixteen that is not below `size`. -/
def roundUp16 (size : Int) : Option Int := do
  let raised ← fit? (size + 15)
  fit? (raised / 16 * 16)

/-- A step that gives out slots, and fails where a value does not fit. -/
abbrev Placing (α : Type) := StateT Frame Option α

/-- The slot of a variable, which is a new one if it has none yet. -/
def slotFor (name : String) (width : Width) : Placing Int := do
  let frame ← get
  match frame.slots.get? name with
  | some offset => return offset
  | none =>
    let above ← alignDown frame.bottom width.alignment
    let offset ← fit? (above - width.bytes)
    set { bottom := offset, slots := frame.slots.set name offset : Frame }
    return offset

/-- Gives an operand its place, if it has none. -/
def place (M : SymbolTable) : Operand → Placing Operand
  | .pseudo name =>
    match M.get? name with
    | some (.object _ true) => return .data name
    | some (.object width false) => return .stack (← slotFor name width)
    | _ => failure
  | operand => return operand

/-- Gives the operands of a list of instructions their places. -/
def placeAll (M : SymbolTable) : List Instr → Placing (List Instr)
  | [] => return []
  | i :: is => return (← i.mapOperands (place M)) :: (← placeAll M is)

/-- Gives the pseudos of a function their places, and tells the size of its frame. -/
def assignSlots (M : SymbolTable) (f : Function) : Option (Function × Int) := do
  let (code, frame) ← (placeAll M f.code).run {}
  let size ← fit? (-frame.bottom)
  return ({ f with code }, size)

/-- A size is rounded up if there are fifteen bytes left above it. -/
theorem roundUp16_eq {size : Int} (h₀ : 0 ≤ size) :
    roundUp16 size = if size ≤ greatest - 15 then some (Machine.roundUp16 size) else none := by
  have hraised : size + 15 ≤ greatest ↔ size ≤ greatest - 15 := by omega
  rw [roundUp16, fit?_of_nonneg (by omega)]
  simp only [hraised]
  split
  · next h =>
    unfold greatest at h
    exact fit?_of_le (by unfold least; omega) (by unfold greatest; omega)
  · rfl

/-- Aligning computes no value that does not fit, if its result does. -/
theorem alignDown_eq {b : Int} (hb : b ≤ 0) (w : Width) :
    alignDown b w.alignment =
      if least ≤ Machine.alignDown b w.alignment then some (Machine.alignDown b w.alignment) else none := by
  have hrest : 0 ≤ b % (w.alignment : Int) ∧ b % (w.alignment : Int) ≤ 8 := by
    cases w with
    | long =>
      show 0 ≤ b % 4 ∧ b % 4 ≤ 8
      omega
    | quad =>
      show 0 ≤ b % 8 ∧ b % 8 ≤ 8
      omega
  have hfit : fit? (b % (w.alignment : Int)) = some (b % (w.alignment : Int)) :=
    fit?_of_le (Int.le_trans (by decide) hrest.1) (Int.le_trans hrest.2 (by decide))
  rw [alignDown, hfit]
  exact fit?_of_nonpos (Int.le_trans (alignDown_le b w) hb)

/-- A new slot is given out if its offset fits. -/
theorem slotFor_eq {frame : Frame} (hbottom : frame.bottom ≤ 0) {x : String} (hnew : frame.slots.get? x = none)
    (w : Width) :
    let offset := Machine.alignDown frame.bottom w.alignment - w.bytes
    (slotFor x w).run frame =
      if least ≤ offset then some (offset, { bottom := offset, slots := frame.slots.set x offset }) else none := by
  intro offset
  have hdown := alignDown_le frame.bottom w
  have hoffset : fit? (Machine.alignDown frame.bottom w.alignment - w.bytes) =
      if least ≤ offset then some offset else none := fit?_of_nonpos (by omega)
  by_cases hfits : least ≤ offset
  · have habove := alignDown_eq hbottom w
    rw [if_pos (by omega)] at habove
    rw [if_pos hfits] at hoffset ⊢
    simp [slotFor, hnew, habove, hoffset]
  · rw [if_neg hfits] at hoffset ⊢
    have habove := alignDown_eq hbottom w
    split at habove
    · simp [slotFor, hnew, habove, hoffset]
    · simp [slotFor, hnew, habove]

end Khel.Machine.Narrow
