import Khel.Program.Operator
import Khel.Ty

/-!
# Intermediate code

Intermediate code is a list of instructions for each function. An instruction reads values and writes at most one, and
control moves by jumps to labels of the same function. How wide a variable is stands in the symbol table; constants
carry their own width.
-/

namespace Khel.Ir

/-- What an instruction reads or writes. -/
inductive Value where
  | int (v : Int32)
  | long (v : Int64)
  | str (text : String)
  | var (name : String)
  deriving DecidableEq

/-- A small constant in the width of a type. -/
def Value.ofTy (v : Int32) : Ty → Value
  | .int64 => .long v.toInt64
  | _ => .int v

/-- An instruction. -/
inductive Instr where
  | ret (value : Value)
  | signExtend (src dst : Value)
  | truncate (src dst : Value)
  | unary (op : UnaryOp) (src dst : Value)
  | binary (op : StrictOp) (left right dst : Value)
  | copy (src dst : Value)
  | jump (target : String)
  | jumpIfZero (test : Value) (target : String)
  | jumpIfNotZero (test : Value) (target : String)
  | label (id : String)
  | call (callee : String) (args : List Value) (dst : Value)
  deriving DecidableEq

/-- The code of a function. -/
structure Function where
  name : String
  isGlobal : Bool
  params : List String
  code : List Instr
  deriving DecidableEq

/-- A variable kept for the whole run, and the value it starts with. -/
structure StaticVar where
  name : String
  isGlobal : Bool
  ty : Ty
  init : Int64
  deriving DecidableEq

/-- A program in intermediate code. -/
structure Program where
  functions : List Function := []
  statics : List StaticVar := []
  /-- Functions that are defined elsewhere. -/
  externals : List String := []
  deriving DecidableEq

end Khel.Ir
