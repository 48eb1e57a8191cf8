import Khel.Machine.Instr
import Khel.Symbol

/-!
# Symbols of machine code

Machine code needs little of what is known of a name: how wide an object is and whether it is static, and how large the
frame of a function is once its slots have been assigned.
-/

namespace Khel.Machine

/-- What machine code knows of a name. -/
inductive Symbol where
  | object (width : Width) (isStatic : Bool)
  | function (isDefined : Bool) (frameSize : Option Int)
  deriving DecidableEq

/-- What machine code knows of all names. -/
abbrev SymbolTable := Table Symbol

/-- Keeps of a symbol what machine code needs. -/
def Symbol.ofSymbol (s : Khel.Symbol) : Except Fault Symbol :=
  match s.role with
  | .function isDefined _ => return .function isDefined none
  | .automatic => return .object (← Width.ofTy s.ty) false
  | .static .. => return .object (← Width.ofTy s.ty) true

namespace SymbolTable

/-- Keeps of every symbol what machine code needs. -/
def ofEntries : List (String × Khel.Symbol) → Except Fault (List (String × Symbol))
  | [] => return []
  | (name, s) :: rest => return (name, ← Symbol.ofSymbol s) :: (← ofEntries rest)

/-- The table that belongs to a program's symbol table. -/
def ofSymbols (symbols : Khel.SymbolTable) : Except Fault SymbolTable := return ⟨← ofEntries symbols.entries⟩

/-- Records the size of a function's frame, which can be done once. -/
def setFrameSize (symbols : SymbolTable) (function : String) (size : Int) : Except Fault SymbolTable :=
  match symbols.get? function with
  | some (.function _ (some _)) => throw (.frameSizeAlreadySet function)
  | some (.function isDefined none) => return symbols.set function (.function isDefined (some size))
  | _ => throw (.missingSymbol .slotAssignment function)

/-- The size of a function's frame, if it is known. -/
def frameSize? (symbols : SymbolTable) (function : String) : Option Int :=
  match symbols.get? function with
  | some (.function _ size) => size
  | _ => none

end SymbolTable

end Khel.Machine
