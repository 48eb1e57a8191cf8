import Khel.Error
import Khel.Machine.Register

/-!
# Machine code

Machine code is a list of instructions for each function. Until slots are assigned an operand may be a *pseudo*, a
variable that has no place yet. Operands stand in the order source, destination.
-/

namespace Khel.Machine

/-! ## Widths -/

/-- How many bytes an instruction works on. -/
inductive Width where
  | long | quad
  deriving DecidableEq

namespace Width

/-- The size of a value, in bytes. -/
def bytes : Width → Nat
  | .long => 4
  | .quad => 8

/-- A value stands at a multiple of its size. -/
def alignment (w : Width) : Nat := w.bytes

/-- The letter at the end of a mnemonic. -/
def suffix : Width → String
  | .long => "l"
  | .quad => "q"

/-- The name of a width in a listing. -/
def text : Width → String
  | .long => "LongWord"
  | .quad => "QuadWord"

/-- The width of a value of the given type. A text is held by its address, and a function is no value. -/
def ofTy : Ty → Except Fault Width
  | .int32 => return .long
  | .int64 | .string => return .quad
  | .fn params ret =>
    throw (.unexpected .instructionSelection ("function type '" ++ (Ty.fn params ret).text ++ "' as a value"))

end Width

/-! ## Operands -/

/-- What an instruction works on. -/
inductive Operand where
  /-- A constant; it may be too wide for its instruction until code is made legal. -/
  | imm (v : Int64)
  | reg (r : Register)
  /-- A variable without a place. -/
  | pseudo (name : String)
  /-- A place at the given distance from the frame pointer. -/
  | stack (offset : Int)
  /-- A variable of static storage. -/
  | data (name : String)
  /-- The address of a text. -/
  | str (text : String)
  deriving DecidableEq

namespace Operand

/-- Is it a constant? -/
def isImm : Operand → Bool
  | .imm _ => true
  | _ => false

/-- Is it a constant that 32 bits cannot hold? -/
def isLargeImm : Operand → Bool
  | .imm v => v.toInt32.toInt64 ≠ v
  | _ => false

/-- Is it in memory? The address of a text counts, since it can only be loaded into a register. -/
def isMemory : Operand → Bool
  | .stack _ | .data _ | .str _ => true
  | _ => false

/-- Is it a register? -/
def isReg : Operand → Bool
  | .reg _ => true
  | _ => false

/-- Is it a variable without a place? -/
def isPseudo : Operand → Bool
  | .pseudo _ => true
  | _ => false

end Operand

/-! ## Instructions -/

/-- Operations on one operand. -/
inductive UnOp where
  | neg | not
  deriving DecidableEq

/-- Operations that combine a source with their destination. -/
inductive BinOp where
  | add | sub | mul
  deriving DecidableEq

/-- Conditions that a comparison can leave. -/
inductive Cond where
  | e | ne | g | ge | l | le
  deriving DecidableEq

/-- The letters of a condition in a mnemonic. -/
def Cond.text : Cond → String
  | .e => "e"
  | .ne => "ne"
  | .g => "g"
  | .ge => "ge"
  | .l => "l"
  | .le => "le"

/-- An instruction. -/
inductive Instr where
  | mov (width : Width) (src dst : Operand)
  /-- Moves four bytes and extends their sign to eight. -/
  | movsx (src dst : Operand)
  | unary (op : UnOp) (width : Width) (arg : Operand)
  | binary (op : BinOp) (width : Width) (src dst : Operand)
  /-- Compares the second operand with the first. -/
  | cmp (width : Width) (left right : Operand)
  /-- Divides the double-width value in `dx` and `ax`. -/
  | idiv (width : Width) (arg : Operand)
  /-- Extends the sign of `ax` into `dx`. -/
  | cdq (width : Width)
  | jmp (target : String)
  | jcc (cond : Cond) (target : String)
  /-- Writes one byte that tells whether the condition holds. -/
  | setcc (cond : Cond) (arg : Operand)
  | label (id : String)
  | push (arg : Operand)
  | call (callee : String)
  | ret
  deriving DecidableEq

namespace Instr

/-- The operands of an instruction, in order. -/
def operands : Instr → List Operand
  | mov _ a b | movsx a b | binary _ _ a b | cmp _ a b => [a, b]
  | unary _ _ a | idiv _ a | setcc _ a | push a => [a]
  | cdq _ | jmp _ | jcc _ _ | label _ | call _ | ret => []

/-- Replaces every operand, in order. -/
def mapOperands {m : Type → Type} [Monad m] (f : Operand → m Operand) : Instr → m Instr
  | mov w a b => return mov w (← f a) (← f b)
  | movsx a b => return movsx (← f a) (← f b)
  | unary op w a => return unary op w (← f a)
  | binary op w a b => return binary op w (← f a) (← f b)
  | cmp w a b => return cmp w (← f a) (← f b)
  | idiv w a => return idiv w (← f a)
  | cdq w => return cdq w
  | jmp target => return jmp target
  | jcc c target => return jcc c target
  | setcc c a => return setcc c (← f a)
  | label id => return label id
  | push a => return push (← f a)
  | call f => return call f
  | ret => return ret

end Instr

/-! ## Programs -/

/-- The code of a function. -/
structure Function where
  name : String
  isGlobal : Bool
  code : List Instr
  deriving DecidableEq

/-- A variable of static storage. -/
structure StaticVar where
  name : String
  isGlobal : Bool
  width : Width
  init : Int64
  deriving DecidableEq

/-- A program in machine code. -/
structure Program where
  functions : List Function := []
  statics : List StaticVar := []
  /-- Functions that are defined elsewhere. -/
  externals : List String := []
  deriving DecidableEq

end Khel.Machine
