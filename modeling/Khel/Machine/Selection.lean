import Khel.Ir.Basic
import Khel.Machine.Symbol

/-!
# Instruction selection

Each instruction of intermediate code becomes a few machine instructions. Variables stay pseudos, and the registers
`r10` and `r11` are left alone: making code legal needs them later.

Six arguments of a call travel in registers, the others on the stack, pushed from the last to the first as eight bytes
each. An odd number of pushes is preceded by eight bytes of padding, so that the stack stays aligned to sixteen.
-/

namespace Khel.Machine

open Ir (Value)

/-! ## Values -/

/-- The operand that holds a value. -/
def Operand.ofValue : Value → Operand
  | .int v => .imm v.toInt64
  | .long v => .imm v
  | .str s => .str s
  | .var x => .pseudo x

/-- The width of a variable. -/
def Width.ofVar (symbols : Khel.SymbolTable) (x : String) : Except Fault Width :=
  match symbols.get? x with
  | some s => Width.ofTy s.ty
  | none => throw (.missingSymbol .instructionSelection x)

/-- The width of a value. -/
def Width.ofValue (symbols : Khel.SymbolTable) : Value → Except Fault Width
  | .int _ => return .long
  | .long _ | .str _ => return .quad
  | .var x => Width.ofVar symbols x

/-- The condition under which a comparison of the right operand with the left one holds. -/
def Cond.ofCompare : CompareOp → Cond
  | .eq => .e
  | .ne => .ne
  | .lt => .l
  | .le => .le
  | .gt => .g
  | .ge => .ge

/-! ## Arithmetic -/

/-- Writes one or zero into `dst`, as the comparison of `right` with `left` says. -/
def compareCode (width dstWidth : Width) (cond : Cond) (left right dst : Operand) : List Instr :=
  [.cmp width left right, .mov dstWidth (.imm 0) dst, .setcc cond dst]

/-- Divides, and takes the register that holds the wanted part of the result. -/
def divisionCode (width : Width) (result : Register) (dividend divisor dst : Operand) : List Instr :=
  [.mov width dividend (.reg .ax), .cdq width, .idiv width divisor, .mov width (.reg result) dst]

/-- Code for a unary operator. -/
def selectUnary (symbols : Khel.SymbolTable) (op : UnaryOp) (src dst : Value) : Except Fault (List Instr) := do
  let width ← Width.ofValue symbols src
  let dstWidth ← Width.ofValue symbols dst
  let (src, dst) := (Operand.ofValue src, Operand.ofValue dst)
  match op with
  | .negate => return [.mov width src dst, .unary .neg width dst]
  | .complement => return [.mov width src dst, .unary .not width dst]
  | .logicalNot => return compareCode width dstWidth .e (.imm 0) src dst

/-- Code for a binary operator. -/
def selectBinary (symbols : Khel.SymbolTable) (op : StrictOp) (left right dst : Value) :
    Except Fault (List Instr) := do
  let width ← Width.ofValue symbols left
  let (l, r, d) := (Operand.ofValue left, Operand.ofValue right, Operand.ofValue dst)
  match op with
  | .arith .add => return [.mov width l d, .binary .add width r d]
  | .arith .sub => return [.mov width l d, .binary .sub width r d]
  | .arith .mul => return [.mov width l d, .binary .mul width r d]
  | .arith .div => return divisionCode width .ax l r d
  | .arith .rem => return divisionCode width .dx l r d
  | .compare op =>
    -- A comparison subtracts its first operand from its second, hence the exchange.
    return compareCode width (← Width.ofValue symbols dst) (Cond.ofCompare op) r l d

/-! ## Calls -/

/-- Where a function finds a parameter, counted from zero: in a register, or above its frame, the return address and the
caller's frame pointer. -/
def Operand.ofParam (index : Nat) : Operand :=
  match Register.ofArgument? index with
  | some r => .reg r
  | none => .stack (16 + 8 * ((index : Int) - 6))

/-- Moves parameters to their variables, counting from `index`. -/
def selectParams (symbols : Khel.SymbolTable) (index : Nat) : List String → Except Fault (List Instr)
  | [] => return []
  | x :: xs => do
    let width ← Width.ofVar symbols x
    return .mov width (Operand.ofParam index) (.pseudo x) :: (← selectParams symbols (index + 1) xs)

/-- Moves arguments to their registers, counting from `index`. -/
def selectRegisterArgs (symbols : Khel.SymbolTable) (index : Nat) : List Value → Except Fault (List Instr)
  | [] => return []
  | v :: vs => do
    let width ← Width.ofValue symbols v
    return .mov width (Operand.ofValue v) (Operand.ofParam index) :: (← selectRegisterArgs symbols (index + 1) vs)

/-- Pushes one argument. A narrow variable is widened through `ax`, and the address of a text is computed there. -/
def selectPush (symbols : Khel.SymbolTable) (v : Value) : Except Fault (List Instr) := do
  let width ← Width.ofValue symbols v
  match v, width with
  | .int _, _ | .long _, _ | .var _, .quad => return [.push (Operand.ofValue v)]
  | _, _ => return [.mov width (Operand.ofValue v) (.reg .ax), .push (.reg .ax)]

/-- Pushes arguments in the order given. -/
def selectPushes (symbols : Khel.SymbolTable) : List Value → Except Fault (List Instr)
  | [] => return []
  | v :: vs => return (← selectPush symbols v) ++ (← selectPushes symbols vs)

/-- Moves the stack pointer, unless by nothing. -/
def adjustStack (op : BinOp) (bytes : Nat) : List Instr :=
  if bytes = 0 then [] else [.binary op .quad (.imm (Int64.ofNat bytes)) (.reg .sp)]

/-- The bytes below some arguments on the stack that keep it aligned. -/
def stackPadding (onStack : Nat) : Nat := if onStack % 2 = 0 then 0 else 8

/-- A call with its arguments in place, and what has to be done about the stack before and after. -/
def callCode (callee : String) (onStack : Nat) (moves pushes : List Instr) : List Instr :=
  adjustStack .sub (stackPadding onStack) ++ moves ++ pushes ++
    .call callee :: adjustStack .add (8 * onStack + stackPadding onStack)

/-- Code for a call. -/
def selectCall (symbols : Khel.SymbolTable) (callee : String) (args : List Value) (dst : Value) :
    Except Fault (List Instr) :=
  if (symbols.get? callee).any (·.isFunction) then do
    let onStack := args.drop 6
    let moves ← selectRegisterArgs symbols 0 (args.take 6)
    let pushes ← selectPushes symbols onStack.reverse
    let width ← Width.ofValue symbols dst
    return callCode callee onStack.length moves pushes ++ [.mov width (.reg .ax) (Operand.ofValue dst)]
  else throw (.missingSymbol .instructionSelection callee)

/-! ## Programs -/

/-- Jumps if the comparison of a value with zero satisfies a condition. -/
def selectJump (symbols : Khel.SymbolTable) (cond : Cond) (test : Value) (target : String) :
    Except Fault (List Instr) := do
  let width ← Width.ofValue symbols test
  return [.cmp width (.imm 0) (Operand.ofValue test), .jcc cond target]

/-- The machine code of an instruction. -/
def select (symbols : Khel.SymbolTable) : Ir.Instr → Except Fault (List Instr)
  | .ret v => return [.mov (← Width.ofValue symbols v) (Operand.ofValue v) (.reg .ax), .ret]
  | .signExtend src dst => return [.movsx (Operand.ofValue src) (Operand.ofValue dst)]
  | .truncate src dst => return [.mov .long (Operand.ofValue src) (Operand.ofValue dst)]
  | .unary op src dst => selectUnary symbols op src dst
  | .binary op l r dst => selectBinary symbols op l r dst
  -- The destination decides how many bytes are written.
  | .copy src dst => return [.mov (← Width.ofValue symbols dst) (Operand.ofValue src) (Operand.ofValue dst)]
  | .jump target => return [.jmp target]
  | .jumpIfZero test target => selectJump symbols .e test target
  | .jumpIfNotZero test target => selectJump symbols .ne test target
  | .label id => return [.label id]
  | .call f args dst => selectCall symbols f args dst

/-- The machine code of a list of instructions. -/
def selectAll (symbols : Khel.SymbolTable) : List Ir.Instr → Except Fault (List Instr)
  | [] => return []
  | i :: is => return (← select symbols i) ++ (← selectAll symbols is)

/-- The machine code of a function, which first fetches its parameters. -/
def Function.ofIr (symbols : Khel.SymbolTable) (f : Ir.Function) : Except Fault Function := do
  let fetch ← selectParams symbols 0 f.params
  let code ← selectAll symbols f.code
  return { name := f.name, isGlobal := f.isGlobal, code := fetch ++ code }

/-- The machine's view of a static variable. -/
def StaticVar.ofIr (v : Ir.StaticVar) : Except Fault StaticVar :=
  return { name := v.name, isGlobal := v.isGlobal, width := ← Width.ofTy v.ty, init := v.init }

/-- The machine code of a program, and the symbols it needs. -/
def Program.ofIr (symbols : Khel.SymbolTable) (p : Ir.Program) : Except Fault (Program × SymbolTable) := do
  let functions ← p.functions.mapM (Function.ofIr symbols)
  let statics ← p.statics.mapM StaticVar.ofIr
  let machineSymbols ← SymbolTable.ofSymbols symbols
  return ({ functions, statics, externals := p.externals }, machineSymbols)

end Khel.Machine
