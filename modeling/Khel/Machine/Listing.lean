import Khel.Machine.Instr
import Khel.Text.Visible

/-!
# Listings of machine code

A listing can be made at any stage: registers appear under their full names and pseudos under the names of their
variables.
-/

namespace Khel.Machine

/-- An operand in a listing. -/
def Operand.text : Operand → String
  | .imm v => "$" ++ toString v.toInt
  | .reg r => "%" ++ r.name 8
  | .pseudo name => name
  | .stack offset => toString offset ++ "(%rbp)"
  | .data name => name ++ "(%rip)"
  | .str s => Text.quote s

/-- The mnemonic of an operation on one operand. -/
def UnOp.mnemonic : UnOp → String
  | .neg => "neg"
  | .not => "not"

/-- The mnemonic of an operation on two operands. -/
def BinOp.mnemonic : BinOp → String
  | .add => "add"
  | .sub => "sub"
  | .mul => "imul"

/-- The mnemonic of the instruction that extends a sign into `dx`. -/
def Width.cdqMnemonic : Width → String
  | .long => "cdq"
  | .quad => "cqo"

/-- A line of a listing. -/
def Instr.line : Instr → String
  | .mov w a b => "  mov" ++ w.suffix ++ " " ++ a.text ++ ", " ++ b.text
  | .movsx a b => "  movslq " ++ a.text ++ ", " ++ b.text
  | .unary op w a => "  " ++ op.mnemonic ++ w.suffix ++ " " ++ a.text
  | .binary op w a b => "  " ++ op.mnemonic ++ w.suffix ++ " " ++ a.text ++ ", " ++ b.text
  | .cmp w a b => "  cmp" ++ w.suffix ++ " " ++ a.text ++ ", " ++ b.text
  | .idiv w a => "  idiv" ++ w.suffix ++ " " ++ a.text
  | .cdq w => "  " ++ w.cdqMnemonic
  | .jmp target => "  jmp " ++ target
  | .jcc c target => "  j" ++ c.text ++ " " ++ target
  | .setcc c a => "  set" ++ c.text ++ " " ++ a.text
  | .label id => id ++ ":"
  | .push a => "  pushq " ++ a.text
  | .call f => "  call " ++ f
  | .ret => "  ret"

/-- The mark of a symbol that is seen from outside. -/
def globalMark (isGlobal : Bool) : String := if isGlobal then "global " else ""

/-- The lines of a function. -/
def Function.lines (f : Function) : List String :=
  (globalMark f.isGlobal ++ "function " ++ f.name ++ ":") :: f.code.map Instr.line ++ [""]

/-- The line of a static variable. -/
def StaticVar.line (v : StaticVar) : String :=
  globalMark v.isGlobal ++ "static " ++ v.name ++ ": " ++ v.width.text ++ " = " ++ toString v.init.toInt

/-- The lines of a program: what it takes from elsewhere, its functions, its static variables. -/
def Program.lines (p : Program) : List String :=
  p.externals.map ("extern " ++ ·) ++ (if p.externals.isEmpty then [] else [""]) ++
    p.functions.flatMap Function.lines ++ p.statics.map StaticVar.line

/-- The listing of a program. -/
def Program.listing (p : Program) : String := String.join (p.lines.map (· ++ "\n"))

end Khel.Machine
