import Khel.Assembly.Line
import Khel.Assembly.StringPool
import Khel.Machine.Listing

/-!
# Instructions in assembly

Writing an instruction interns the texts it names. A pseudo cannot be written; what was interned before it was met stays
in the pool.
-/

namespace Khel.Assembly

open Machine (Operand Instr)

/-- A step that may intern texts. What it interned stays interned also if it fails. -/
abbrev Writing (α : Type) := ExceptT Fault (StateM StringPool) α

/-- The number of a text. -/
def intern (text : String) : Writing Nat := do
  let (id, pool) := (← get).intern text
  set pool
  return id

/-- An operand of the given size in bytes. -/
def operand (target : Target) (bytes : Nat) : Operand → Writing String
  | .imm v => return "$" ++ toString v.toInt
  | .reg r => return "%" ++ r.name bytes
  | .stack offset => return toString offset ++ "(%rbp)"
  | .data name => return target.symbol name ++ "(%rip)"
  | .str text => return textLabel target (← intern text) ++ "(%rip)"
  | .pseudo name => throw (.pseudoLeft name)

/-- An instruction with one operand. -/
def op1 (target : Target) (mnemonic : String) (bytes : Nat) (a : Operand) : Writing (List Line) :=
  return [.op mnemonic [← operand target bytes a]]

/-- An instruction with two operands of one size. -/
def op2 (target : Target) (mnemonic : String) (bytes : Nat) (a b : Operand) : Writing (List Line) :=
  return [.op mnemonic [← operand target bytes a, ← operand target bytes b]]

/-- A callee. On one of the targets a function from outside is called through the linkage table. -/
def callee (target : Target) (externals : List String) (name : String) : String :=
  match target with
  | .darwin => target.symbol name
  | .linux => if externals.contains name then name ++ "@PLT" else name

/-- The lines of an instruction. A return also takes down the frame. -/
def instr (target : Target) (externals : List String) : Instr → Writing (List Line)
  -- The address of a text has to be computed.
  | .mov _ (.str text) dst => op2 target "leaq" 8 (.str text) dst
  | .mov w src dst => op2 target ("mov" ++ w.suffix) w.bytes src dst
  | .movsx src dst => return [.op "movslq" [← operand target 4 src, ← operand target 8 dst]]
  | .unary op w a => op1 target (op.mnemonic ++ w.suffix) w.bytes a
  | .binary op w src dst => op2 target (op.mnemonic ++ w.suffix) w.bytes src dst
  | .cmp w a b => op2 target ("cmp" ++ w.suffix) w.bytes a b
  | .idiv w a => op1 target ("idiv" ++ w.suffix) w.bytes a
  | .cdq w => return [.op w.cdqMnemonic []]
  | .jmp label => return [.op "jmp" [target.localLabel label]]
  | .jcc c label => return [.op ("j" ++ c.text) [target.localLabel label]]
  | .setcc c a => op1 target ("set" ++ c.text) 1 a
  | .label id => return [localLine target id]
  | .push a => op1 target "pushq" 8 a
  | .call f => return [.op "call" [callee target externals f]]
  | .ret => return [.op "movq" ["%rbp", "%rsp"], .op "popq" ["%rbp"], .op "ret" []]

/-- The lines of a list of instructions. -/
def instrs (target : Target) (externals : List String) : List Instr → Writing (List Line)
  | [] => return []
  | i :: is => return (← instr target externals i) ++ (← instrs target externals is)

end Khel.Assembly
