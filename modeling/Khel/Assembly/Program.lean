import Khel.Assembly.Instr

/-!
# Programs in assembly

The text of a program starts with the names it shares with the outside. Then come the entry point, if there is one, the
functions, the static variables, and the texts that the functions turned out to need.
-/

namespace Khel.Assembly

open Machine (Function StaticVar)

/-- The name of the function that a program starts with, in Latin letters. -/
def entryName : String := "wndsen"

/-- The entry point of the process: it calls the entry function and ends with what that returns. -/
def entryLines (target : Target) : List Line :=
  [Section.text.line, globalLine target "main", symbolLine target "main", .op "call" [target.symbol entryName]] ++
    (match target with
      | .linux => [.op "movq" ["%rax", "%rdi"], .op "movq" ["$60", "%rax"], .op "syscall" []]
      | .darwin => [.op "ret" []]) ++
    [.blank]

/-- The lines of a function. -/
def function (target : Target) (externals : List String) (f : Function) : Writing (List Line) :=
  return [Section.text.line, symbolLine target f.name, .op "pushq" ["%rbp"], .op "movq" ["%rsp", "%rbp"]] ++
    (← instrs target externals f.code) ++ [.blank]

/-- The lines of a list of functions. -/
def functions (target : Target) (externals : List String) : List Function → Writing (List Line)
  | [] => return []
  | f :: fs => return (← function target externals f) ++ (← functions target externals fs)

/-- The lines of a static variable. One that starts as zero takes no room in the file. -/
def staticLines (target : Target) (v : StaticVar) : List Line :=
  (if v.isGlobal then [globalLine target v.name] else []) ++
    (if v.init = 0 then
      [Section.bss.line, alignLine v.width.alignment, symbolLine target v.name, zeroLine v.width.bytes]
    else
      [Section.data.line, alignLine v.width.alignment, symbolLine target v.name, dataLine v.width v.init]) ++
    [.blank]

/-- The lines of the texts of a pool. -/
def poolLines (target : Target) (pool : StringPool) : List Line :=
  if pool.texts.isEmpty then []
  else Section.data.line :: pool.entries.flatMap (fun e => textLines target e.1 e.2) ++ [.blank]

/-- Asks for a stack that cannot be executed, where the system wants to be asked. -/
def stackLines : Target → List Line
  | .linux => [.op ".section" [".note.GNU-stack,\"\",@progbits"]]
  | .darwin => []

/-- The lines of a program. The entry point is written if it is wanted and the program has an entry function. -/
def program (target : Target) (wantsEntry : Bool) (p : Machine.Program) : Writing (List Line) := do
  let shared := p.externals.map (externalLine target) ++
    (p.functions.filter (·.isGlobal)).map (fun f => globalLine target f.name) ++ [.blank]
  let entry := if wantsEntry && p.functions.any (·.name = entryName) then entryLines target else []
  let code ← functions target p.externals p.functions
  let statics := p.statics.flatMap (staticLines target)
  return shared ++ entry ++ code ++ statics ++ poolLines target (← get) ++ stackLines target

end Khel.Assembly
