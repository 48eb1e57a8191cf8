/-!
# Operators

A binary operator is either *strict*, and then both operands are evaluated, or one of the two logical operators that
may skip the right operand. Only the strict ones survive into the intermediate code, under their mnemonics.
-/

namespace Khel

/-- Operators of one operand. -/
inductive UnaryOp where
  | negate | complement | logicalNot
  deriving DecidableEq

/-- Arithmetic on two integers of one width. -/
inductive ArithOp where
  | add | sub | mul | div | rem
  deriving DecidableEq

/-- Comparisons of two values of one type. -/
inductive CompareOp where
  | eq | ne | lt | le | gt | ge
  deriving DecidableEq

/-- Operators that evaluate both operands. -/
inductive StrictOp where
  | arith (op : ArithOp)
  | compare (op : CompareOp)
  deriving DecidableEq

/-- Operators of two operands. -/
inductive BinaryOp where
  | strict (op : StrictOp)
  | logicalAnd
  | logicalOr
  deriving DecidableEq

/-! ## Spelling in a program -/

/-- A unary operator as the programmer writes it. -/
def UnaryOp.symbol : UnaryOp → String
  | .negate => "-"
  | .complement => "~"
  | .logicalNot => "!"

/-- An arithmetic operator as the programmer writes it. -/
def ArithOp.symbol : ArithOp → String
  | .add => "+"
  | .sub => "-"
  | .mul => "*"
  | .div => "/"
  | .rem => "%"

/-- A comparison as the programmer writes it. -/
def CompareOp.symbol : CompareOp → String
  | .eq => "=="
  | .ne => "!="
  | .lt => "<"
  | .le => "<="
  | .gt => ">"
  | .ge => ">="

/-- A binary operator as the programmer writes it. -/
def BinaryOp.symbol : BinaryOp → String
  | .strict (.arith op) => op.symbol
  | .strict (.compare op) => op.symbol
  | .logicalAnd => "&&"
  | .logicalOr => "||"

/-! ## Spelling in a listing of intermediate code -/

/-- A unary operator in intermediate code. -/
def UnaryOp.mnemonic : UnaryOp → String
  | .negate => "neg"
  | .complement => "bitnot"
  | .logicalNot => "not"

/-- An arithmetic operator in intermediate code. -/
def ArithOp.mnemonic : ArithOp → String
  | .add => "add"
  | .sub => "sub"
  | .mul => "mul"
  | .div => "div"
  | .rem => "rem"

/-- A comparison in intermediate code. -/
def CompareOp.mnemonic : CompareOp → String
  | .eq => "eq"
  | .ne => "ne"
  | .lt => "lt"
  | .le => "le"
  | .gt => "gt"
  | .ge => "ge"

/-- A strict operator in intermediate code. -/
def StrictOp.mnemonic : StrictOp → String
  | .arith op => op.mnemonic
  | .compare op => op.mnemonic

/-! ## Classes -/

/-- Does the operator compare its operands? -/
def StrictOp.isComparison : StrictOp → Bool
  | .compare _ => true
  | .arith _ => false

/-- Does the operator compare its operands? -/
def BinaryOp.isComparison : BinaryOp → Bool
  | .strict op => op.isComparison
  | _ => false

/-- May the operator skip its right operand? -/
def BinaryOp.isLogical : BinaryOp → Bool
  | .logicalAnd | .logicalOr => true
  | .strict _ => false

end Khel
