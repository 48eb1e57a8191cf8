import Khel.Machine.Instr
import Khel.Proofs.Ir.Semantics

/-!
# What machine code does

The machine has registers of eight bytes, flags, and memory. A variable without a place has a cell of its own, of four
or eight bytes, beside the memory. Instructions are executed also where no encoding exists for their operands: a
constant is cut to the width of its instruction, and a text is its address.

* `Machine.Instr.exec`: what one instruction does.
* `Machine.run`: what a block of instructions does, up to the first that does not fall through.
-/

namespace Khel.Machine

/-! ## Widths -/

/-- How many bits an instruction works on. -/
@[reducible] def Width.bits : Width → Nat
  | .long => 32
  | .quad => 64

/-- A word of the given width. -/
abbrev Word (w : Width) := BitVec w.bits

/-- The cell of a variable. -/
inductive Cell where
  | long (v : Word .long)
  | quad (v : Word .quad)

/-- The cell that holds a word. -/
def Cell.of : (w : Width) → Word w → Cell
  | .long, v => .long v
  | .quad, v => .quad v

/-- Reads the low bytes; there are none to read beyond the cell. -/
def Cell.read : (w : Width) → Cell → Option (Word w)
  | .long, .long v => some v
  | .long, .quad v => some (v.setWidth 32)
  | .quad, .quad v => some v
  | .quad, .long _ => none

/-- Writes the low bytes, and keeps the others. -/
def Cell.write : (w : Width) → Word w → Cell → Option Cell
  | .long, v, .long _ => some (.long v)
  | .long, v, .quad old => some (.quad (old.extractLsb' 32 32 ++ v))
  | .quad, v, .quad _ => some (.quad v)
  | .quad, _, .long _ => none

/-- Writes the lowest byte. -/
def Cell.writeByte (b : BitVec 8) : Cell → Cell
  | .long old => .long (old.extractLsb' 8 24 ++ b)
  | .quad old => .quad (old.extractLsb' 8 56 ++ b)

/-! ## States -/

/-- What a comparison leaves behind. -/
structure Flags where
  zero : Bool
  sign : Bool
  overflow : Bool

/-- The flags after `b` was subtracted from `a`. -/
def Flags.ofSub {n : Nat} (a b : BitVec n) : Flags :=
  { zero := a - b = 0
    sign := (a - b).msb
    overflow := (a - b).toInt ≠ a.toInt - b.toInt }

/-- Does the condition hold? -/
def Cond.holds (f : Flags) : Cond → Bool
  | .e => f.zero
  | .ne => !f.zero
  | .l => f.sign != f.overflow
  | .le => f.zero || f.sign != f.overflow
  | .g => !f.zero && f.sign == f.overflow
  | .ge => f.sign == f.overflow

/-- The state of the machine. Flags that an instruction leaves in a state which code must not rely on are unknown. -/
structure State where
  reg : Register → BitVec 64
  flags : Option Flags
  pseudo : String → Cell
  memory : BitVec 64 → BitVec 8

/-- The word that starts at an address; the lowest byte stands first. -/
def State.load (m : State) (a : BitVec 64) : (w : Width) → Word w
  | .long => m.memory (a + 3) ++ m.memory (a + 2) ++ m.memory (a + 1) ++ m.memory a
  | .quad => m.memory (a + 7) ++ m.memory (a + 6) ++ m.memory (a + 5) ++ m.memory (a + 4) ++
      m.memory (a + 3) ++ m.memory (a + 2) ++ m.memory (a + 1) ++ m.memory a

/-- Writes the lowest bytes of `v`, as many as `n`, from an address on. -/
def State.storeBytes (m : State) (a : BitVec 64) (v : BitVec 64) : Nat → State
  | 0 => m
  | n + 1 =>
    let m' := m.storeBytes a v n
    { m' with memory := Function.update m'.memory (a + BitVec.ofNat 64 n) (v.extractLsb' (8 * n) 8) }

/-- Reads an operand. -/
def State.read (world : World) (m : State) (w : Width) : Operand → Option (Word w)
  | .imm v => some (v.toBitVec.setWidth w.bits)
  | .reg r => some ((m.reg r).setWidth w.bits)
  | .pseudo x => (m.pseudo x).read w
  | .stack offset => some (m.load (m.reg .bp + BitVec.ofInt 64 offset) w)
  | .data x => some (m.load (world.data x).toBitVec w)
  | .str text => some ((world.text text).toBitVec.setWidth w.bits)

/-- Writes an operand. Four bytes written to a register clear the others. -/
def State.write (world : World) (m : State) (w : Width) (v : Word w) : Operand → Option State
  | .reg r => some { m with reg := Function.update m.reg r (v.setWidth 64) }
  | .pseudo x => do
    let cell ← (m.pseudo x).write w v
    return { m with pseudo := Function.update m.pseudo x cell }
  | .stack offset => some (m.storeBytes (m.reg .bp + BitVec.ofInt 64 offset) (v.setWidth 64) w.bytes)
  | .data x => some (m.storeBytes (world.data x).toBitVec (v.setWidth 64) w.bytes)
  | .imm _ | .str _ => none

/-- Writes one byte. -/
def State.writeByte (world : World) (m : State) (b : BitVec 8) : Operand → Option State
  | .reg r => some { m with reg := Function.update m.reg r ((m.reg r).extractLsb' 8 56 ++ b) }
  | .pseudo x => some { m with pseudo := Function.update m.pseudo x ((m.pseudo x).writeByte b) }
  | .stack offset => some (m.storeBytes (m.reg .bp + BitVec.ofInt 64 offset) (b.setWidth 64) 1)
  | .data x => some (m.storeBytes (world.data x).toBitVec (b.setWidth 64) 1)
  | .imm _ | .str _ => none

/-! ## Instructions -/

/-- Where control goes after an instruction. -/
inductive Flow where
  | next
  | goto (target : String)
  | call (callee : String)
  | ret
  deriving DecidableEq

def UnOp.apply {n : Nat} : UnOp → BitVec n → BitVec n
  | .neg, v => -v
  | .not, v => ~~~v

/-- The source stands on the right. -/
def BinOp.apply {n : Nat} : BinOp → BitVec n → BitVec n → BitVec n
  | .add, a, b => a + b
  | .sub, a, b => a - b
  | .mul, a, b => a * b

/-- All bits equal to the sign. -/
def signBits {n : Nat} (v : BitVec n) : BitVec n := if v.msb then -1 else 0

/-- Divides the double-width dividend `high`, `low`. There is no result if the quotient does not fit. -/
def divide {n : Nat} (high low divisor : BitVec n) : Option (BitVec n × BitVec n) :=
  let dividend := (high ++ low).toInt
  let quotient := BitVec.ofInt n (dividend.tdiv divisor.toInt)
  if divisor = 0 ∨ quotient.toInt ≠ dividend.tdiv divisor.toInt then none
  else some (quotient, BitVec.ofInt n (dividend.tmod divisor.toInt))

/-- What one instruction does, and where control goes. -/
def Instr.exec (world : World) (m : State) : Instr → Option (Flow × State)
  | .mov w src dst => do
    return (.next, ← m.write world w (← m.read world w src) dst)
  | .movsx src dst => do
    let v ← m.read world .long src
    return (.next, ← m.write world .quad (v.signExtend 64) dst)
  | .unary op w arg => do
    let m' ← m.write world w (op.apply (← m.read world w arg)) arg
    return (.next, if op = .neg then { m' with flags := none } else m')
  | .binary op w src dst => do
    let a ← m.read world w dst
    let b ← m.read world w src
    return (.next, { ← m.write world w (op.apply a b) dst with flags := none })
  | .cmp w left right => do
    let a ← m.read world w right
    let b ← m.read world w left
    return (.next, { m with flags := some (.ofSub a b) })
  | .cdq w => do
    return (.next, ← m.write world w (signBits ((m.reg .ax).setWidth w.bits)) (.reg .dx))
  | .idiv w arg => do
    let d ← m.read world w arg
    let (q, r) ← divide ((m.reg .dx).setWidth w.bits) ((m.reg .ax).setWidth w.bits) d
    let m' ← m.write world w q (.reg .ax)
    return (.next, { ← m'.write world w r (.reg .dx) with flags := none })
  | .jmp target => some (.goto target, m)
  | .jcc c target => do
    return (if c.holds (← m.flags) then .goto target else .next, m)
  | .setcc c arg => do
    return (.next, ← m.writeByte world (if c.holds (← m.flags) then 1 else 0) arg)
  | .label _ => some (.next, m)
  | .push arg => do
    let v ← m.read world .quad arg
    let m' := { m with reg := Function.update m.reg .sp (m.reg .sp - 8) }
    return (.next, m'.storeBytes (m'.reg .sp) v 8)
  | .call f => some (.call f, m)
  | .ret => some (.ret, m)

/-- What a block of instructions does, up to the first that does not fall through. -/
def run (world : World) (m : State) : List Instr → Option (Flow × State)
  | [] => some (.next, m)
  | i :: rest =>
    match i.exec world m with
    | some (.next, m') => run world m' rest
    | stopped => stopped

/-! ## Steps -/

section Steps

variable {world : World} {m m' : State} {w : Width} {src dst : Operand} {a b v : Word w}

theorem run_next {i : Instr} {rest : List Instr} (h : i.exec world m = some (.next, m')) :
    run world m (i :: rest) = run world m' rest := by
  simp [run, h]

theorem exec_mov (hr : m.read world w src = some v) (hw : m.write world w v dst = some m') :
    (Instr.mov w src dst).exec world m = some (.next, m') := by
  simp [Instr.exec, hr, hw]

theorem exec_unary {op : UnOp} (hr : m.read world w dst = some v) (hw : m.write world w (op.apply v) dst = some m') :
    (Instr.unary op w dst).exec world m = some (.next, if op = .neg then { m' with flags := none } else m') := by
  simp [Instr.exec, hr, hw]

theorem exec_binary {op : BinOp} (ha : m.read world w dst = some a) (hb : m.read world w src = some b)
    (hw : m.write world w (op.apply a b) dst = some m') :
    (Instr.binary op w src dst).exec world m = some (.next, { m' with flags := none }) := by
  simp [Instr.exec, ha, hb, hw]

theorem exec_cmp (ha : m.read world w dst = some a) (hb : m.read world w src = some b) :
    (Instr.cmp w src dst).exec world m = some (.next, { m with flags := some (.ofSub a b) }) := by
  simp [Instr.exec, ha, hb]

theorem exec_setcc {c : Cond} {f : Flags} (hf : m.flags = some f)
    (hw : m.writeByte world (if c.holds f then 1 else 0) dst = some m') :
    (Instr.setcc c dst).exec world m = some (.next, m') := by
  simp only [Instr.exec, hf, Option.bind_eq_bind, Option.bind_some, hw, Option.pure_def]

theorem exec_idiv {d q r : Word w} {m'' : State} (hd : m.read world w src = some d)
    (hq : divide ((m.reg .dx).setWidth w.bits) ((m.reg .ax).setWidth w.bits) d = some (q, r))
    (hw : m.write world w q (.reg .ax) = some m') (hw' : m'.write world w r (.reg .dx) = some m'') :
    (Instr.idiv w src).exec world m = some (.next, { m'' with flags := none }) := by
  simp [Instr.exec, hd, hq, hw, hw']

end Steps

end Khel.Machine
