import Khel.Ir.Basic
import Khel.Naming.Scope
import Khel.Symbol

/-!
# Steps of lowering

Lowering needs temporaries and labels. Each temporary is entered into the symbol table, where a later stage finds its
width. Labels of all functions are numbered together; the labels of a loop are made from the loop's id instead.
-/

namespace Khel.Ir

/-- What lowering has used up so far. -/
structure LoweringState where
  symbols : SymbolTable
  temps : Nat := 0
  labels : Nat := 0

/-- A step of lowering, which fails if an earlier stage left something undone. -/
abbrev Lowering (α : Type) := StateT LoweringState (Except Fault) α

namespace Lowering

/-- Makes a temporary. -/
def temp (ty : Ty) : Lowering Value := do
  let s ← get
  let name := numbered "tmp" s.temps
  set { s with symbols := s.symbols.set name ⟨ty, .automatic⟩, temps := s.temps + 1 }
  return .var name

/-- Makes a label. -/
def label (stem : String) : Lowering String := do
  let s ← get
  set { s with labels := s.labels + 1 }
  return numbered stem s.labels

/-- Fails on something that should not be there. -/
def unexpected {α : Type} (detail : String) : Lowering α := throw (.unexpected .irGen detail)

/-- The id of a loop, or of the loop that a jump belongs to. -/
def loopId (statement : String) : Option String → Lowering String
  | some id => return id
  | none => unexpected ("'" ++ statement ++ "' statement without a loop id")

end Lowering

/-- The label in front of the next round of a loop. -/
def continueLabel (loop : String) : String := "continue." ++ loop

/-- The label behind a loop. -/
def breakLabel (loop : String) : String := "break." ++ loop

end Khel.Ir
