import Khel.Error
import Khel.Program.Stmt
import Khel.Table

/-!
# Scopes and numbered names

A scope says what every visible name denotes. An inner scope starts as its enclosing scope with nothing declared in it
yet, so a declaration inside hides the outer one and leaves it as it was.

Whatever a pass has to name anew is called by a stem and a number. A pass counts up as it goes, so no number serves
twice; the stem says what the name is for.
-/

namespace Khel

/-! ## Numbered names -/

/-- The name with the given stem and number. -/
def numbered (stem : String) (n : Nat) : String := stem ++ "." ++ toString n

/-- A pass that takes the next number when it needs one, and may reject the program. -/
abbrev Fresh (α : Type) := StateT Nat (Except Rejection) α

namespace Fresh

/-- Takes the next number for a name with the given stem. -/
def name (stem : String) : Fresh String := do
  let n ← get
  set (n + 1)
  return numbered stem n

/-- Rejects the program. -/
def reject {α : Type} (complaint : Complaint) (span : Span) : Fresh α := throw ⟨complaint, span⟩

end Fresh

/-! ## Scopes -/

/-- What a name denotes. -/
structure Binding where
  /-- The name that no other variable of the program has. -/
  uniqueName : String
  /-- Was it declared in this very scope? -/
  isHere : Bool
  /-- Does it denote a name that all scopes share? -/
  isLinked : Bool
  deriving DecidableEq

/-- The visible names. -/
abbrev Scope := Table Binding

namespace Scope

/-- The scope inside a new block. -/
def enter (scope : Scope) : Scope := scope.map fun b => { b with isHere := false }

/-- Lets a name denote itself. -/
def link (scope : Scope) (name : String) : Scope := scope.set name ⟨name, true, true⟩

/-- Is there a declaration of the name in this very scope? -/
def declares (scope : Scope) (name : String) : Bool := (scope.get? name).any (·.isHere)

/-- Is there a declaration of the name in this very scope that denotes a variable of its own? -/
def declaresOwn (scope : Scope) (name : String) : Bool := (scope.get? name).any fun b => b.isHere && !b.isLinked

/-- Declares a variable, which gets a name of its own. -/
def declare (scope : Scope) (ident : Ident) : Fresh (Ident × Scope) :=
  if scope.declares ident.name then Fresh.reject (.duplicateVariable ident.name) ident.span
  else do
    let unique ← Fresh.name ident.name
    return ({ ident with name := unique }, scope.set ident.name ⟨unique, true, false⟩)

end Scope

end Khel
