import Khel.Machine.Symbol

/-!
# Frames

Slot assignment gives every pseudo of a function a place. A static variable is found in the data section; any other
variable gets a slot of its own in the frame, below the slots given before it and at a multiple of its size. The frame
is as large as its lowest slot is deep.
-/

namespace Khel.Machine

/-- The slots given out so far. -/
structure Frame where
  /-- The offset of the lowest slot from the frame pointer. -/
  bottom : Int := 0
  slots : Table Int := .empty

/-- The greatest multiple of `n` that is not above `offset`. -/
def alignDown (offset : Int) (n : Nat) : Int := offset - offset % n

/-- The least multiple of sixteen that is not below `size`. -/
def roundUp16 (size : Int) : Int := (size + 15) / 16 * 16

/-- A step that gives out slots. -/
abbrev Placing (α : Type) := StateT Frame (Except Fault) α

/-- The slot of a variable, which is a new one if it has none yet. -/
def slotFor (name : String) (width : Width) : Placing Int := do
  let frame ← get
  match frame.slots.get? name with
  | some offset => return offset
  | none =>
    let offset := alignDown frame.bottom width.alignment - width.bytes
    set { bottom := offset, slots := frame.slots.set name offset : Frame }
    return offset

/-- Gives an operand its place, if it has none. -/
def Operand.place (symbols : SymbolTable) : Operand → Placing Operand
  | .pseudo name =>
    match symbols.get? name with
    | some (.object _ true) => return .data name
    | some (.object width false) => return .stack (← slotFor name width)
    | _ => throw (.missingSymbol .slotAssignment name)
  | operand => return operand

/-- Gives the operands of a list of instructions their places. -/
def placeAll (symbols : SymbolTable) : List Instr → Placing (List Instr)
  | [] => return []
  | i :: is => return (← i.mapOperands (Operand.place symbols)) :: (← placeAll symbols is)

/-- Gives the pseudos of a function their places, and tells the size of its frame. -/
def Function.assignSlots (symbols : SymbolTable) (f : Function) : Except Fault (Function × Int) := do
  let (code, frame) ← (placeAll symbols f.code).run {}
  return ({ f with code }, frame.bottom.natAbs)

/-- Assigns the slots of functions one after the other, and records the sizes of their frames. -/
def assignAllSlots (symbols : SymbolTable) : List Function → Except Fault (List Function × SymbolTable)
  | [] => return ([], symbols)
  | f :: fs => do
    let (f, size) ← f.assignSlots symbols
    let symbols ← symbols.setFrameSize f.name size
    let (fs, symbols) ← assignAllSlots symbols fs
    return (f :: fs, symbols)

/-- Assigns the slots of a program. -/
def Program.assignSlots (p : Program) (symbols : SymbolTable) : Except Fault (Program × SymbolTable) := do
  let (functions, symbols) ← assignAllSlots symbols p.functions
  return ({ p with functions }, symbols)

end Khel.Machine
