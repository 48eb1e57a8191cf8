import Khel.Machine.Instr
import Khel.Text.Latin

/-!
# Machine code with Latin names

The names of functions, static variables, labels and callees are spelled in Latin letters. Texts stay as they are, and
so do pseudos, which never reach the assembler.
-/

namespace Khel.Machine

open Text (latin)

/-- Spells the name in an operand. -/
def Operand.latinize : Operand → Except Fault Operand
  | .data name => return .data (← latin name)
  | operand => return operand

/-- Spells the names in an instruction. -/
def Instr.latinize : Instr → Except Fault Instr
  | .jmp target => return .jmp (← latin target)
  | .jcc c target => return .jcc c (← latin target)
  | .label id => return .label (← latin id)
  | .call f => return .call (← latin f)
  | i => i.mapOperands Operand.latinize

/-- Spells the names in a function. -/
def Function.latinize (f : Function) : Except Fault Function := do
  let name ← latin f.name
  let code ← f.code.mapM Instr.latinize
  return { f with name, code }

/-- Spells the name of a static variable. -/
def StaticVar.latinize (v : StaticVar) : Except Fault StaticVar := return { v with name := ← latin v.name }

/-- Spells all names of a program. -/
def Program.latinize (p : Program) : Except Fault Program := do
  let functions ← p.functions.mapM Function.latinize
  let statics ← p.statics.mapM StaticVar.latinize
  let externals ← p.externals.mapM latin
  return { functions, statics, externals }

end Khel.Machine
