import Khel.Symbol
import Khel.Typing.Conversion

/-!
# Types of expressions

Checking an expression finds its type, records the type of every node, and puts a cast around each operand whose width
has to change. The type of an operand that has been checked is read in its note.

* Operands of arithmetic, of a comparison, of a range and of a choice meet in their common type.
* A value assigned or passed takes the type of its place.
* What logical operators test keeps its own width.
-/

namespace Khel

mutual
/-- Finds the type of an expression, under the symbols declared so far. -/
def Expr.check (symbols : SymbolTable) : Expr → Except CompileError Expr
  | .int note v => return (Expr.int note v).setTy .int32
  | .long note v => return (Expr.long note v).setTy .int64
  | .str note s => return (Expr.str note s).setTy .string
  | .var note x =>
    match symbols.get? x with
    | none => throw (.fault (.missingSymbol .typeChecker x))
    | some symbol =>
      if symbol.isFunction then throw (.rejected ⟨.functionAsValue x, note.span⟩)
      else return (Expr.var note x).setTy symbol.ty
  | .call note f args =>
    match symbols.get? f with
    | none => throw (.rejected ⟨.undeclaredFunction f, note.span⟩)
    | some symbol =>
      match symbol.ty with
      | .fn params ret =>
        if params.length = args.length then
          return (Expr.call note f (← Expr.checkArgs symbols params args)).setTy ret
        else throw (.rejected ⟨.arityMismatch f params.length args.length, note.span⟩)
      | _ => throw (.rejected ⟨.notAFunction f, note.span⟩)
  | .unary note op a => do
    let a ← a.check symbols
    match op with
    | .logicalNot => return (Expr.unary note op a).setTy .int32
    | .negate | .complement =>
      a.requireInteger
      return (Expr.unary note op a).setTy (← a.knownTy)
  | .binary note op l r => do
    let l ← l.check symbols
    let r ← r.check symbols
    match op with
    | .logicalAnd | .logicalOr => return (Expr.binary note op l r).setTy .int32
    | .strict strictOp =>
      let common := (← l.knownTy).common (← r.knownTy)
      let l ← l.convert common
      let r ← r.convert common
      match strictOp with
      | .compare _ => return (Expr.binary note op l r).setTy .int32
      | .arith _ =>
        l.requireInteger
        return (Expr.binary note op l r).setTy common
  | .assign note l r => do
    let l ← l.check symbols
    let r ← r.check symbols
    let t ← l.knownTy
    let r ← r.convert t
    return (Expr.assign note l r).setTy t
  | .cond note c t f => do
    let c ← c.check symbols
    let t ← t.check symbols
    let f ← f.check symbols
    let common := (← t.knownTy).common (← f.knownTy)
    let t ← t.convert common
    let f ← f.convert common
    return (Expr.cond note c t f).setTy common
  | .range note l r => do
    let l ← l.check symbols
    let r ← r.check symbols
    let common := (← l.knownTy).common (← r.knownTy)
    let l ← l.convert common
    let r ← r.convert common
    l.requireInteger
    return (Expr.range note l r).setTy common
  | .cast note target a => return (Expr.cast note target (← a.check symbols)).setTy target

/-- Checks arguments from left to right and converts each to the type of its parameter. -/
def Expr.checkArgs (symbols : SymbolTable) : List Ty → List Expr → Except CompileError (List Expr)
  | param :: params, arg :: args => do
    let arg ← arg.check symbols
    let arg ← arg.convert param
    return arg :: (← Expr.checkArgs symbols params args)
  | _, args => return args
end

end Khel
