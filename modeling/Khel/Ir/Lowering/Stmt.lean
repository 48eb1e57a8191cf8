import Khel.Ir.Lowering.Expr
import Khel.Program.Stmt

/-!
# Lowering of statements

Each kind of statement has a layout of its own: where its labels stand and where control jumps. The layouts are plain
functions of the lowered parts, and lowering supplies the parts in the order in which they are laid out.
-/

namespace Khel

open Ir

namespace Ir

/-- `if` without an `else`. -/
def ifThenCode (done : String) (test : List Instr × Value) (yes : List Instr) : List Instr :=
  test.1 ++ .jumpIfZero test.2 done :: yes ++ [.label done]

/-- `if` with an `else`. -/
def ifElseCode (isFalse done : String) (test : List Instr × Value) (yes no : List Instr) : List Instr :=
  test.1 ++ .jumpIfZero test.2 isFalse :: yes ++ .jump done :: .label isFalse :: no ++ [.label done]

/-- A loop that tests before each round. -/
def whileCode (start loop : String) (test : List Instr × Value) (body : List Instr) : List Instr :=
  .label start :: test.1 ++ .jumpIfZero test.2 (breakLabel loop) :: body ++
    [.label (continueLabel loop), .jump start, .label (breakLabel loop)]

/-- A loop through a range. The first value is computed once and the last one before each round, where `inRange` says
whether the variable has not passed it. -/
def rangeCode (start loop : String) (var one inRange : Value) (first last : List Instr × Value) (body : List Instr) :
    List Instr :=
  first.1 ++ .copy first.2 var :: .label start :: last.1 ++
    .binary (.compare .le) var last.2 inRange :: .jumpIfZero inRange (breakLabel loop) :: body ++
    [.label (continueLabel loop), .binary (.arith .add) var one var, .jump start, .label (breakLabel loop)]

end Ir

/-- The type of the variable of a loop. -/
def Ident.loopTy (ident : Ident) : Lowering Ty := do
  match (← get).symbols.get? ident.name with
  | some symbol => return symbol.ty
  | none => throw (.missingSymbol .irGen ident.name)

/-- Lowers a variable declared in a block. One that is kept for the whole run is never written here. -/
def VarDecl.lower (d : VarDecl) : Lowering (List Instr) :=
  match d.storage, d.init with
  | none, some e => do
    let (code, src) ← e.lower
    return code ++ [.copy src (.var d.ident.name)]
  | _, _ => return []

mutual
/-- Lowers a statement. -/
def Stmt.lower : Stmt → Lowering (List Instr)
  | .eval e => return (← e.lower).1
  | .ret none _ => return [.ret (.int 0)]
  | .ret (some e) _ => do
    let (code, value) ← e.lower
    return code ++ [.ret value]
  | .ifThen c s => do
    let done ← Lowering.label "if_end"
    return ifThenCode done (← c.lower) (← s.lower)
  | .ifElse c s t => do
    let isFalse ← Lowering.label "if_else"
    let done ← Lowering.label "if_end"
    return ifElseCode isFalse done (← c.lower) (← s.lower) (← t.lower)
  | .block items => lowerItems items
  | .whileLoop c body id => do
    let id ← Lowering.loopId "while" id
    let start ← Lowering.label "while_start"
    return whileCode start id (← c.lower) (← lowerItems body)
  | .loop var control body id => do
    let id ← Lowering.loopId "loop" id
    let start ← Lowering.label "loop_start"
    match var, control with
    | some ident, .range _ l r => do
      let ty ← ident.loopTy
      let first ← l.lower
      let last ← r.lower
      let inRange ← Lowering.temp .int32
      return rangeCode start id (.var ident.name) (.ofTy 1 ty) inRange first last (← lowerItems body)
    | _, _ => return whileCode start id (← control.lower) (← lowerItems body)
  | .leave _ id => return [.jump (breakLabel (← Lowering.loopId "break" id))]
  | .next _ id => return [.jump (continueLabel (← Lowering.loopId "continue" id))]
  | .skip => return []

/-- Lowers the items of a block in order. -/
def lowerItems : List Item → Lowering (List Instr)
  | [] => return []
  | .stmt s :: rest => return (← s.lower) ++ (← lowerItems rest)
  | .var d :: rest => return (← d.lower) ++ (← lowerItems rest)
  | .fn head _ :: _ => Lowering.unexpected ("function declaration '" ++ head.ident.name ++ "' in a block")
end

end Khel
