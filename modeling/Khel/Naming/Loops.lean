import Khel.Naming.Scope
import Khel.Program.Stmt

/-!
# Loop ids

Every loop gets an id, and every jump out of or back to a loop gets the id of the innermost loop around it. Loops are
numbered in the order in which they start, over the whole program.
-/

namespace Khel

mutual
/-- Labels the loops in a statement that stands in the loop `current`, or in none. -/
def Stmt.labelLoops (current : Option String) : Stmt → Fresh Stmt
  | .eval e => return .eval e
  | .ret value span => return .ret value span
  | .ifThen c s => return .ifThen c (← s.labelLoops current)
  | .ifElse c s t => return .ifElse c (← s.labelLoops current) (← t.labelLoops current)
  | .block items => return .block (← labelItems current items)
  | .whileLoop c body _ => do
    let id ← Fresh.name "while"
    return .whileLoop c (← labelItems (some id) body) (some id)
  | .loop var control body _ => do
    let id ← Fresh.name "loop"
    return .loop var control (← labelItems (some id) body) (some id)
  | .leave span _ =>
    match current with
    | some id => return .leave span (some id)
    | none => Fresh.reject .leaveOutsideLoop span
  | .next span _ =>
    match current with
    | some id => return .next span (some id)
    | none => Fresh.reject .nextOutsideLoop span
  | .skip => return .skip

/-- Labels the loops in the statements of a block. -/
def labelItems (current : Option String) : List Item → Fresh (List Item)
  | [] => return []
  | .stmt s :: rest => return .stmt (← s.labelLoops current) :: (← labelItems current rest)
  | .var d :: rest => return .var d :: (← labelItems current rest)
  | .fn head body :: rest => return .fn head body :: (← labelItems current rest)
end

/-- Labels the loops in the bodies of functions. -/
def labelDecls : List Decl → Fresh (List Decl)
  | [] => return []
  | .fn head (some body) :: rest => return .fn head (some (← labelItems none body)) :: (← labelDecls rest)
  | .fn head none :: rest => return .fn head none :: (← labelDecls rest)
  | .var d :: rest => return .var d :: (← labelDecls rest)

/-- Labels all loops of a program. -/
def Program.labelLoops (p : Program) : Except Rejection Program :=
  return ⟨← (labelDecls p.decls).run' 0⟩

end Khel
