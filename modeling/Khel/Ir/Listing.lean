import Khel.Ir.Basic
import Khel.Text.Visible

/-!
# Listings of intermediate code
-/

namespace Khel.Ir

/-- A value in a listing; a wide constant is marked. -/
def Value.text : Value → String
  | .int v => toString v.toInt
  | .long v => toString v.toInt ++ "L"
  | .str s => Text.quote s
  | .var x => x

/-- A line of a listing. -/
def Instr.line : Instr → String
  | .ret v => "  ret " ++ v.text
  | .signExtend src dst => "  " ++ dst.text ++ " = sign-ex " ++ src.text
  | .truncate src dst => "  " ++ dst.text ++ " = trunc " ++ src.text
  | .unary op src dst => "  " ++ dst.text ++ " = " ++ op.mnemonic ++ " " ++ src.text
  | .binary op l r dst => "  " ++ dst.text ++ " = " ++ op.mnemonic ++ " " ++ l.text ++ ", " ++ r.text
  | .copy src dst => "  " ++ dst.text ++ " = " ++ src.text
  | .jump target => "  jmp " ++ target
  | .jumpIfZero test target => "  if (" ++ test.text ++ " == 0) jmp " ++ target
  | .jumpIfNotZero test target => "  if (" ++ test.text ++ " != 0) jmp " ++ target
  | .label id => id ++ ":"
  | .call f args dst => "  " ++ dst.text ++ " = call @" ++ f ++ "(" ++ ", ".intercalate (args.map Value.text) ++ ")"

/-- Who sees a symbol. -/
def linkage (isGlobal : Bool) : String := if isGlobal then "pub" else "internal"

/-- The lines of a function. -/
def Function.lines (f : Function) : List String :=
  ("define " ++ linkage f.isGlobal ++ " symbol @" ++ f.name ++ "(" ++ ", ".intercalate f.params ++ ") \x7b") ::
    f.code.map Instr.line ++ ["\x7d", ""]

/-- The line of a static variable. -/
def StaticVar.line (v : StaticVar) : String :=
  "define " ++ linkage v.isGlobal ++ " symbol @" ++ v.name ++ ": " ++ v.ty.text ++ " = " ++ toString v.init.toInt

/-- The lines of a program: what it takes from elsewhere, its functions, its static variables. -/
def Program.lines (p : Program) : List String :=
  p.externals.map ("declare extern @" ++ ·) ++ (if p.externals.isEmpty then [] else [""]) ++
    p.functions.flatMap Function.lines ++ p.statics.map StaticVar.line

/-- The listing of a program. -/
def Program.listing (p : Program) : String := String.join (p.lines.map (· ++ "\n"))

end Khel.Ir
