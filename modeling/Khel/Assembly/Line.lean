import Khel.Machine.Instr
import Khel.Target

/-!
# Lines of assembly

The text of a program is a list of lines: labels at the margin, and instructions and directives behind an indent.

An assembler reads a text between quotes as a sequence of bytes. Printable ASCII stands for itself, apart from the quote
and the backslash; a line end and a tab have a short form; every other byte is written as three octal digits. Three
digits are as many as the assembler takes, so a digit that follows is not mistaken for a part of the escape.
-/

/-! ## Texts -/

namespace Khel.Text

/-- The bytes of a text in UTF-8. -/
def utf8 (s : String) : List UInt8 := s.toList.flatMap String.utf8EncodeChar

/-- The digit of a number below eight. -/
def octalDigit (n : Nat) : Char := Char.ofNat ('0'.toNat + n % 8)

/-- A byte inside a text of the assembler. -/
def escapeByte (b : UInt8) : List Char :=
  if b = 0x22 then ['\\', '"']
  else if b = 0x5c then ['\\', '\\']
  else if b = 0x0a then ['\\', 'n']
  else if b = 0x09 then ['\\', 't']
  else if 0x20 ≤ b ∧ b ≤ 0x7e then [Char.ofNat b.toNat]
  else ['\\', octalDigit (b.toNat / 64), octalDigit (b.toNat / 8), octalDigit b.toNat]

/-- A text as it stands between the quotes of the assembler. -/
def escape (s : String) : String := String.ofList ((utf8 s).flatMap escapeByte)

end Khel.Text

namespace Khel.Assembly

/-! ## Lines -/

/-- A line of assembly. -/
inductive Line where
  | blank
  | label (name : String)
  /-- A directive or an instruction with its operands. -/
  | op (mnemonic : String) (operands : List String)
  deriving DecidableEq

/-- The text of a line, with its line end. -/
def Line.text : Line → String
  | .blank => "\n"
  | .label name => name ++ ":\n"
  | .op mnemonic [] => "    " ++ mnemonic ++ "\n"
  | .op mnemonic operands => "    " ++ mnemonic ++ " " ++ ", ".intercalate operands ++ "\n"

/-- The text of a list of lines. -/
def render (lines : List Line) : String := String.join (lines.map Line.text)

/-! ## Directives -/

/-- The sections of a program. -/
inductive Section where
  | bss | data | text
  deriving DecidableEq

/-- Starts a section. -/
def Section.line : Section → Line
  | .bss => .op ".bss" []
  | .data => .op ".data" []
  | .text => .op ".text" []

/-- Lets a symbol be seen from outside. -/
def globalLine (target : Target) (name : String) : Line := .op ".globl" [target.symbol name]

/-- Announces a symbol from outside. -/
def externalLine (target : Target) (name : String) : Line := .op ".extern" [target.symbol name]

/-- Defines a symbol. -/
def symbolLine (target : Target) (name : String) : Line := .label (target.symbol name)

/-- Defines a label that the assembler keeps to itself. -/
def localLine (target : Target) (name : String) : Line := .label (target.localLabel name)

/-- Aligns what follows to a multiple of some bytes. -/
def alignLine (bytes : Nat) : Line := .op ".balign" [toString bytes]

/-- Reserves some bytes of zero. -/
def zeroLine (bytes : Nat) : Line := .op ".zero" [toString bytes]

/-- Defines a constant; a narrow one keeps its low 32 bits. -/
def dataLine : Machine.Width → Int64 → Line
  | .long, v => .op ".long" [toString v.toInt32.toInt]
  | .quad, v => .op ".quad" [toString v.toInt]

/-- The label of a text of the pool. -/
def textLabel (target : Target) (id : Nat) : String := target.localLabel ("C" ++ toString id)

/-- Defines a text of the pool. -/
def textLines (target : Target) (id : Nat) (text : String) : List Line :=
  [.label (textLabel target id), .op ".asciz" ["\"" ++ Text.escape text ++ "\""]]

end Khel.Assembly
