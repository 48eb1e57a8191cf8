import Khel.Proofs.Ir.Semantics
import Khel.Program.Stmt

/-!
# What a checked program does

Expressions are evaluated from left to right, and statements run one after the other until one of them leaves a loop,
goes on with its next round, or returns. Values are signed integers as in intermediate code, and calls are answered by
the same world outside.

An operand that is a plain variable, or an assignment to one, can be read in two ways: its value is taken *at once*,
when its turn has come, or only *at use*, when all operands have had their turn and the operation is carried out. The
first is what evaluation from left to right means; the other is what becomes of it where operands are kept in their
variables.

* `Expr.eval`: what an expression comes to; it has no value if a division has none.
* `Stmt.run`: what a statement does, if each loop in it ends after less than `fuel` rounds.
-/

namespace Khel

/-! ## Operands -/

/-- When the value of a variable is taken that stands as an operand. -/
inductive Reading where
  | atOnce | atUse
  deriving DecidableEq

/-- What an operand has come to: a value, or a variable that holds it. -/
inductive Result where
  | value (v : Int)
  | place (x : String)
  deriving DecidableEq

/-- The value of an operand. -/
def Result.read (s : Store) : Result → Int
  | .value v => v
  | .place x => s x

/-- A variable as an operand. -/
def Reading.ofVar (s : Store) (x : String) : Reading → Result
  | .atOnce => .value (s x)
  | .atUse => .place x

/-! ## Expressions -/

section Eval

variable (w : World) (T : SymbolTable) (reading : Reading)

mutual
/-- Evaluates an expression. Every operation works in the width of its type. -/
def Expr.eval : Expr → Store → Option (Result × Store)
  | .int _ v, s => some (.value v.toInt, s)
  | .long _ v, s => some (.value v.toInt, s)
  | .str _ text, s => some (.value (w.text text).toInt, s)
  | .var _ x, s => some (reading.ofVar s x, s)
  | .call note f args, s => do
    let t ← note.ty
    let (rs, s) ← Expr.evalAll args s
    let (v, s) := w.answer T f (rs.map (Result.read s)) s
    return (.value (t.wrap v), s)
  | .unary note op a, s => do
    let t ← note.ty
    let (r, s) ← a.eval s
    return (.value (op.apply t (r.read s)), s)
  | .binary _ .logicalAnd l r, s => do
    let (a, s) ← l.eval s
    if a.read s = 0 then return (.value 0, s)
    else
      let (b, s) ← r.eval s
      return (.value (truth (b.read s ≠ 0)), s)
  | .binary _ .logicalOr l r, s => do
    let (a, s) ← l.eval s
    if a.read s = 0 then
      let (b, s) ← r.eval s
      return (.value (truth (b.read s ≠ 0)), s)
    else return (.value 1, s)
  | .binary note (.strict op) l r, s => do
    let t ← note.ty
    let (a, s) ← l.eval s
    let (b, s) ← r.eval s
    let v ← op.apply t (a.read s) (b.read s)
    return (.value v, s)
  | .assign note (.var _ x) e, s => do
    let t ← note.ty
    let (r, s) ← e.eval s
    let s := Function.update s x (t.wrap (r.read s))
    return (reading.ofVar s x, s)
  | .assign _ _ _, _ => none
  | .cond note c yes no, s => do
    let t ← note.ty
    let (a, s) ← c.eval s
    let (r, s) ← if a.read s = 0 then no.eval s else yes.eval s
    return (.value (t.wrap (r.read s)), s)
  -- As a value, a range is the number of integers in it.
  | .range note l r, s => do
    let t ← note.ty
    let (a, s) ← l.eval s
    let (b, s) ← r.eval s
    return (.value (t.wrap (t.wrap (b.read s - a.read s) + 1)), s)
  | .cast _ target a, s => do
    let (r, s) ← a.eval s
    return (.value (target.wrap (r.read s)), s)

/-- Evaluates expressions from left to right. -/
def Expr.evalAll : List Expr → Store → Option (List Result × Store)
  | [], s => some ([], s)
  | e :: es, s => do
    let (r, s) ← e.eval s
    let (rs, s) ← Expr.evalAll es s
    return (r :: rs, s)
end

/-- Evaluates an expression and takes its value. -/
def Expr.value (e : Expr) (s : Store) : Option (Int × Store) := do
  let (r, s) ← e.eval w T reading s
  return (r.read s, s)

end Eval

/-! ## Statements -/

/-- How a statement ends. -/
inductive Outcome where
  | done
  /-- By leaving the loop around it. -/
  | leave
  /-- By going on with the next round of the loop around it. -/
  | next
  | ret (v : Int)
  deriving DecidableEq

/-- Runs the rounds of a loop, less than `fuel` of them. A round starts with a test and ends with a step. -/
def loopRounds (test : Store → Option (Int × Store)) (body : Store → Option (Outcome × Store)) (step : Store → Store) :
    Nat → Store → Option (Outcome × Store)
  | 0, _ => none
  | fuel + 1, s => do
    let (v, s) ← test s
    if v = 0 then return (.done, s)
    else
      let (outcome, s) ← body s
      match outcome with
      | .done | .next => loopRounds test body step fuel (step s)
      | .leave => return (.done, s)
      | .ret v => return (.ret v, s)

section Run

variable (w : World) (T : SymbolTable) (reading : Reading) (fuel : Nat)

/-- Runs the declaration of a variable. One that is kept for the whole run is not written here. -/
def VarDecl.run (d : VarDecl) (s : Store) : Option Store :=
  match d.storage, d.init with
  | none, some e => do
    let (v, s) ← e.value w T reading s
    return Function.update s d.ident.name (d.type.ty.wrap v)
  | _, _ => some s

mutual
/-- Runs a statement. -/
def Stmt.run : Stmt → Store → Option (Outcome × Store)
  | .eval e, s => do
    let (_, s) ← e.value w T reading s
    return (.done, s)
  | .ret none _, s => some (.ret 0, s)
  | .ret (some e) _, s => do
    let (v, s) ← e.value w T reading s
    return (.ret v, s)
  | .ifThen c yes, s => do
    let (v, s) ← c.value w T reading s
    if v = 0 then return (.done, s) else yes.run s
  | .ifElse c yes no, s => do
    let (v, s) ← c.value w T reading s
    if v = 0 then no.run s else yes.run s
  | .block items, s => runItems items s
  | .whileLoop c body _, s => loopRounds (c.value w T reading) (runItems body) id fuel s
  -- The variable starts with the first value and is counted up after each round, also after one that was cut short; the
  -- last value is computed before each round.
  | .loop (some x) (.range note l r) body _, s => do
    let t ← note.ty
    let (first, s) ← l.value w T reading s
    let inRange (s : Store) := do
      let (last, s) ← r.value w T reading s
      return (truth (s x.name ≤ last), s)
    let count (s : Store) := Function.update s x.name (t.wrap (s x.name + 1))
    loopRounds inRange (runItems body) count fuel (Function.update s x.name (t.wrap first))
  | .loop _ control body _, s => loopRounds (control.value w T reading) (runItems body) id fuel s
  | .leave _ _, s => some (.leave, s)
  | .next _ _, s => some (.next, s)
  | .skip, s => some (.done, s)

/-- Runs the items of a block until one of them does not end normally. -/
def runItems : List Item → Store → Option (Outcome × Store)
  | [], s => some (.done, s)
  | .stmt st :: rest, s => do
    let (outcome, s) ← st.run s
    if outcome = .done then runItems rest s else return (outcome, s)
  | .var d :: rest, s => do
    let s ← d.run w T reading s
    runItems rest s
  | .fn _ _ :: _, _ => none
end

end Run

end Khel
