import Khel.Ir.Lowering
import Khel.Program.Expr

/-!
# Lowering of expressions

An expression becomes code that computes it, and the value that then holds the result. Operands run from left to right.
A constant, a text or a variable needs no code, and the value of a variable is the variable itself.
-/

namespace Khel

open Ir

/-- The type that checking recorded. -/
def Expr.recordedTy (e : Expr) : Lowering Ty :=
  match e.ty with
  | some t => return t
  | none => Lowering.unexpected ("untyped expression '" ++ e.text ++ "'")

/-- Code for `&&`: the right operand runs only if the left one is not zero. -/
def Ir.andCode (isFalse done : String) (left right : List Instr × Value) (dst : Value) : List Instr :=
  left.1 ++ .jumpIfZero left.2 isFalse :: right.1 ++
    [.jumpIfZero right.2 isFalse, .copy (.int 1) dst, .jump done, .label isFalse, .copy (.int 0) dst, .label done]

/-- Code for `||`: the right operand runs only if the left one is zero. -/
def Ir.orCode (isTrue done : String) (left right : List Instr × Value) (dst : Value) : List Instr :=
  left.1 ++ .jumpIfNotZero left.2 isTrue :: right.1 ++
    [.jumpIfNotZero right.2 isTrue, .copy (.int 0) dst, .jump done, .label isTrue, .copy (.int 1) dst, .label done]

/-- Code for a choice: one of the two branches runs. -/
def Ir.condCode (isFalse done : String) (test yes no : List Instr × Value) (dst : Value) : List Instr :=
  test.1 ++ .jumpIfZero test.2 isFalse :: yes.1 ++ .copy yes.2 dst :: .jump done :: .label isFalse :: no.1 ++
    [.copy no.2 dst, .label done]

mutual
/-- Lowers an expression to its code and the value that holds its result. -/
def Expr.lower : Expr → Lowering (List Instr × Value)
  | .int _ v => return ([], .int v)
  | .long _ v => return ([], .long v)
  | .str _ s => return ([], .str s)
  | .var _ x => return ([], .var x)
  | .call note f args => do
    let (code, values) ← Expr.lowerAll args
    let dst ← Lowering.temp (← (Expr.call note f args).recordedTy)
    return (code ++ [.call f values dst], dst)
  | .unary note op a => do
    let (code, src) ← a.lower
    let dst ← Lowering.temp (← (Expr.unary note op a).recordedTy)
    return (code ++ [.unary op src dst], dst)
  | .binary _ .logicalAnd l r => do
    let isFalse ← Lowering.label "and_false"
    let done ← Lowering.label "and_end"
    let dst ← Lowering.temp .int32
    return (andCode isFalse done (← l.lower) (← r.lower) dst, dst)
  | .binary _ .logicalOr l r => do
    let isTrue ← Lowering.label "or_true"
    let done ← Lowering.label "or_end"
    let dst ← Lowering.temp .int32
    return (orCode isTrue done (← l.lower) (← r.lower) dst, dst)
  | .binary note (.strict op) l r => do
    let (codeL, left) ← l.lower
    let (codeR, right) ← r.lower
    let dst ← Lowering.temp (← (Expr.binary note (.strict op) l r).recordedTy)
    return (codeL ++ codeR ++ [.binary op left right dst], dst)
  | .assign _ target value =>
    match target with
    | .var _ x => do
      let (code, src) ← value.lower
      return (code ++ [.copy src (.var x)], .var x)
    | _ => Lowering.unexpected ("assignment to '" ++ target.text ++ "'")
  | .cond note c t f => do
    let isFalse ← Lowering.label "cond_else"
    let done ← Lowering.label "cond_end"
    let dst ← Lowering.temp (← (Expr.cond note c t f).recordedTy)
    return (condCode isFalse done (← c.lower) (← t.lower) (← f.lower) dst, dst)
  | .range note l r => do
    let (codeL, first) ← l.lower
    let (codeR, last) ← r.lower
    -- As a value, a range is the number of integers in it.
    let ty ← (Expr.range note l r).recordedTy
    let dst ← Lowering.temp ty
    return (codeL ++ codeR ++
      [.binary (.arith .sub) last first dst, .binary (.arith .add) dst (.ofTy 1 ty) dst], dst)
  | .cast _ target a => do
    let (code, src) ← a.lower
    match ← a.recordedTy, target with
    | .int32, .int64 => do
      let dst ← Lowering.temp .int64
      return (code ++ [.signExtend src dst], dst)
    | .int64, .int32 => do
      let dst ← Lowering.temp .int32
      return (code ++ [.truncate src dst], dst)
    | _, _ => return (code, src)

/-- Lowers expressions from left to right, and collects the values that hold their results. -/
def Expr.lowerAll : List Expr → Lowering (List Instr × List Value)
  | [] => return ([], [])
  | e :: es => do
    let (code, value) ← e.lower
    let (codes, values) ← Expr.lowerAll es
    return (code ++ codes, value :: values)
end

end Khel
