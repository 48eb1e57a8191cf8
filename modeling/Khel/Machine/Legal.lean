import Khel.Machine.Frame

/-!
# Legal code

Not every combination of operands can be encoded. Illegal instructions are split: a source goes through the scratch
register `r10`, a destination through `r11`. A function also gets its frame, rounded up so that the stack stays aligned.

* An immediate of more than 32 bits can only be moved to a register.
* No instruction has two operands in memory.
* The address of a text can only be moved.
* `cmp` and `idiv` do not take an immediate as their last operand, `movsx` takes none at all.
* The results of `imul` and `movsx` go to a register.
-/

namespace Khel.Machine

/-- The register that holds a source for the next instruction. -/
def srcScratch : Operand := .reg .r10

/-- The register that holds a destination for the next instruction. -/
def dstScratch : Operand := .reg .r11

/-! ## Addresses of texts -/

/-- Loads an operand into a register if it is the address of a text. -/
def loadText (scratch : Operand) : Operand → List Instr × Operand
  | .str s => ([.mov .quad (.str s) scratch], scratch)
  | operand => ([], operand)

/-- Loads the addresses of texts that an instruction cannot take, and gives the instruction that is left. -/
def loadTexts : Instr → List Instr × Instr
  | .cmp w a b =>
    let (loadA, a) := loadText srcScratch a
    let (loadB, b) := loadText dstScratch b
    (loadA ++ loadB, .cmp w a b)
  | .binary op w a b =>
    let (load, a) := loadText srcScratch a
    (load, .binary op w a b)
  | .idiv w a =>
    let (load, a) := loadText srcScratch a
    (load, .idiv w a)
  | i => ([], i)

/-! ## Immediates and registers -/

/-- Moves an operand to a register if a condition asks for it. -/
def viaRegister (needed : Bool) (width : Width) (scratch operand : Operand) : List Instr × Operand :=
  if needed then ([.mov width operand scratch], scratch) else ([], operand)

/-- A move of a large immediate: four bytes of it are enough for a narrow place, and a wide one needs a register. -/
def legalMov (w : Width) (src dst : Operand) : List Instr :=
  if src.isLargeImm then
    match w, src with
    | .long, .imm v => [.mov .long (.imm v.toInt32.toInt64) dst]
    | _, _ => [.mov w src srcScratch, .mov w srcScratch dst]
  else [.mov w src dst]

/-- Sign extension works from a place or register into a register. -/
def legalMovsx (src dst : Operand) : List Instr :=
  let (load, src) := viaRegister src.isImm .long srcScratch src
  if dst.isMemory then load ++ [.movsx src dstScratch, .mov .quad dstScratch dst] else load ++ [.movsx src dst]

/-- A comparison takes a small immediate on the left and none on the right. -/
def legalCmp (w : Width) (left right : Operand) : List Instr :=
  let (loadL, left) := viaRegister left.isLargeImm w srcScratch left
  let (loadR, right) := viaRegister right.isImm w dstScratch right
  loadL ++ loadR ++ [.cmp w left right]

/-- A push takes a small immediate. -/
def legalPush (arg : Operand) : List Instr :=
  let (load, arg) := viaRegister arg.isLargeImm .quad srcScratch arg
  load ++ [.push arg]

/-- A division takes no immediate. -/
def legalIdiv (w : Width) (arg : Operand) : List Instr :=
  let (load, arg) := viaRegister arg.isImm w srcScratch arg
  load ++ [.idiv w arg]

/-- Arithmetic takes a small immediate, and a product goes to a register. -/
def legalBinary (op : BinOp) (w : Width) (src dst : Operand) : List Instr :=
  let (load, src) := viaRegister (w = .quad && src.isLargeImm) w srcScratch src
  if op = .mul && !dst.isReg then
    load ++ [.mov w dst dstScratch, .binary op w src dstScratch, .mov w dstScratch dst]
  else load ++ [.binary op w src dst]

/-- Makes the immediates and the destination of an instruction legal. -/
def legalOperands : Instr → List Instr
  | .mov w src dst => legalMov w src dst
  | .movsx src dst => legalMovsx src dst
  | .cmp w left right => legalCmp w left right
  | .push arg => legalPush arg
  | .idiv w arg => legalIdiv w arg
  | .binary op w src dst => legalBinary op w src dst
  | i => [i]

/-! ## Memory -/

/-- Splits an instruction with two operands in memory. -/
def splitMemory : Instr → List Instr
  | .mov w src dst =>
    if src.isMemory && dst.isMemory then [.mov w src srcScratch, .mov w srcScratch dst] else [.mov w src dst]
  | .cmp w left right =>
    if left.isMemory && right.isMemory then [.mov w left srcScratch, .cmp w srcScratch right]
    else [.cmp w left right]
  | .binary op w src dst =>
    if src.isMemory && dst.isMemory then [.mov w src srcScratch, .binary op w srcScratch dst]
    else [.binary op w src dst]
  | i => [i]

/-! ## Programs -/

/-- The first pseudo among some operands. -/
def firstPseudo? : List Operand → Option String
  | [] => none
  | .pseudo name :: _ => some name
  | _ :: rest => firstPseudo? rest

/-- The legal code that stands for an instruction. -/
def legalCode (i : Instr) : List Instr :=
  let (loads, i) := loadTexts i
  (loads ++ legalOperands i).flatMap splitMemory

/-- Makes a list of instructions legal; a pseudo has to be gone by now. -/
def legalize : List Instr → Except Fault (List Instr)
  | [] => return []
  | i :: is =>
    match firstPseudo? i.operands with
    | some name => throw (.pseudoLeft name)
    | none => return legalCode i ++ (← legalize is)

/-- Makes the code of a function legal. -/
def Function.legalize (f : Function) : Except Fault Function := return { f with code := ← Machine.legalize f.code }

/-- Makes room for a frame of the given size. -/
def Function.allocate (size : Int) (f : Function) : Function :=
  { f with code := .binary .sub .quad (.imm (Int64.ofInt (roundUp16 size))) (.reg .sp) :: f.code }

/-- Gives a function its frame and makes its code legal. -/
def Function.finish (symbols : SymbolTable) (f : Function) : Except Fault Function :=
  match symbols.frameSize? f.name with
  | some size => (f.allocate size).legalize
  | none => throw (.missingSymbol .fixup f.name)

/-- Makes the code of all functions legal, without giving them frames. -/
def Program.legalize (p : Program) : Except Fault Program :=
  return { p with functions := ← p.functions.mapM Function.legalize }

/-- Gives all functions their frames and makes their code legal. -/
def Program.finish (p : Program) (symbols : SymbolTable) : Except Fault Program :=
  return { p with functions := ← p.functions.mapM (Function.finish symbols) }

end Khel.Machine
