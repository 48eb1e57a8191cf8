import Khel.Error
import Khel.Program.Expr

/-!
# Conversions and constants

Integers of one width are converted to the other by a cast; nothing else is ever converted. What is asked of an
expression here is asked of the type in its note. The initial value of a static variable must be a constant, which is
worked out in 64 bits and cut down to a width afterwards.
-/

namespace Khel

/-- A constant cut down to the width of a type. -/
def Ty.truncate : Ty → Int64 → Int64
  | .int32, v => v.toInt32.toInt64
  | _, v => v

/-- The value of an integer constant, which may be negated, complemented and cast. -/
def Expr.constant? : Expr → Option Int64
  | .int _ v => some v.toInt64
  | .long _ v => some v
  | .unary _ .negate a => a.constant?.map (- ·)
  | .unary _ .complement a => a.constant?.map (~~~ ·)
  | .cast _ target a => a.constant?.map target.truncate
  | _ => none

/-- The type of an expression that has been checked. -/
def Expr.knownTy (e : Expr) : Except Fault Ty :=
  match e.ty with
  | some t => .ok t
  | none => .error (.unexpected .typeChecker ("untyped expression '" ++ e.text ++ "'"))

/-- Converts an expression to type `target`. -/
def Expr.convert (e : Expr) (target : Ty) : Except Rejection Expr :=
  match e.ty with
  | some found =>
    if found = target then .ok e
    else if !found.isInteger || !target.isInteger then .error ⟨.incompatibleTypes target found, e.span⟩
    else .ok (.mkCast target e)
  | none => .ok (.mkCast target e)

/-- Refuses an operand that is known not to be an integer. -/
def Expr.requireInteger (e : Expr) : Except Rejection Unit :=
  match e.ty with
  | some found => if found.isInteger then .ok () else .error ⟨.incompatibleTypes .int32 found, e.span⟩
  | none => .ok ()

/-- The type of a variable that counts through `control`: that of the range, if there is one. -/
def Expr.counterTy (control : Expr) : Except Fault Ty := if control.isRange then control.knownTy else .ok .int32

end Khel
