import Khel.Assembly.Program
import Khel.Compile.Event
import Khel.Ir.Listing
import Khel.Ir.Lowering.Program
import Khel.Machine.Latin
import Khel.Machine.Legal
import Khel.Machine.Selection
import Khel.Naming.Loops
import Khel.Naming.Resolve
import Khel.Typing.Program

/-!
# Compilation

A program is analysed, lowered to intermediate code, turned into legal machine code and written as assembly. Each stage
takes the whole result of the one before it, and the first error ends the compilation. A listing that is asked for ends
it too.

* `Program.analyze` has three passes. What comes out has unique names, labelled loops and typed expressions.
* `compile` gives the result, and `compileReporting` reports on the way to the same result.
* `compileToFile` writes the assembly to a file; a program that fails leaves no file behind.
-/

namespace Khel

/-- What is wanted of a compilation. -/
structure Options where
  target : Target := .linux
  /-- Stop with a listing of the intermediate code. -/
  printIr : Bool := false
  /-- Stop with a listing of the legal machine code. -/
  printMachine : Bool := false
  /-- Write an entry point for the process. -/
  entryPoint : Bool := true
  /-- Further wishes, by name. -/
  flags : List String := []
  deriving DecidableEq

/-- Are diagnostics wanted in one line? -/
def Options.isTerse (options : Options) : Bool := options.flags.contains "print-terse"

/-- What a compilation produces. -/
inductive Output where
  | assembly (text : String)
  | irListing (text : String)
  | machineListing (text : String)
  deriving DecidableEq

/-- The text of an output. -/
def Output.text : Output → String
  | .assembly text | .irListing text | .machineListing text => text

/-! ## Stages -/

/-- Resolves names, labels loops and checks types. -/
def Program.analyze (p : Program) : Except CompileError (Program × SymbolTable) := do
  let p ← p.resolve
  let p ← p.labelLoops
  p.check

/-- The machine code of a program: selected, with its slots assigned, and legal. -/
def Ir.Program.toMachine (ir : Ir.Program) (symbols : SymbolTable) :
    Except Fault (Machine.Program × Machine.SymbolTable) := do
  let (code, machineSymbols) ← Machine.Program.ofIr symbols ir
  let (code, machineSymbols) ← code.assignSlots machineSymbols
  return (← code.finish machineSymbols, machineSymbols)

/-- The assembly of a program with an empty pool of texts, and the pool afterwards. -/
def Machine.Program.toAssembly (code : Machine.Program) (options : Options) : Except Fault (String × StringPool) := do
  let code ← code.latinize
  match (ExceptT.run (Assembly.program options.target options.entryPoint code)).run .empty with
  | (.ok lines, pool) => return (Assembly.render lines, pool)
  | (.error f, _) => throw f

/-- Compiles a program. -/
def compile (options : Options) (p : Program) : Except CompileError Output := do
  let (p, symbols) ← p.analyze
  let (ir, symbols) ← CompileError.ofFaulting (p.lower symbols)
  if options.printIr then return .irListing ir.listing
  else
    let (code, _) ← CompileError.ofFaulting (ir.toMachine symbols)
    if options.printMachine then return .machineListing code.listing
    else
      let (text, _) ← CompileError.ofFaulting (code.toAssembly options)
      return .assembly text

/-! ## Reports -/

/-- Analyses a program and reports each pass. -/
def reportAnalysis (p : Program) : Reporting (Program × SymbolTable) := do
  let p ← Reporting.step (CompileError.ofRejecting p.resolve)
  Reporting.report .debug "sema: identifiers resolved"
  let p ← Reporting.step (CompileError.ofRejecting p.labelLoops)
  Reporting.report .debug "sema: loops labelled"
  let (p, symbols) ← Reporting.step p.check
  Reporting.report .debug s!"sema: {p.decls.length} top-level declarations, {symbols.size} symbols"
  return (p, symbols)

/-- Lowers a program and reports the result. -/
def reportLowering (p : Program) (symbols : SymbolTable) : Reporting (Ir.Program × SymbolTable) := do
  let (ir, symbols) ← Reporting.step (CompileError.ofFaulting (p.lower symbols))
  Reporting.report .debug <|
    s!"ir: {ir.functions.length} functions, {ir.statics.length} static variables, {ir.externals.length} externs"
  Reporting.report .trace ("tacky:\n" ++ ir.listing)
  return (ir, symbols)

/-- The size of a frame in a report. -/
def frameSizeText : Option Int → String
  | some size => "Some(" ++ toString size ++ ")"
  | none => "None"

/-- Reports the frames of functions. -/
def reportFrames (symbols : Machine.SymbolTable) : List Machine.Function → Reporting Unit
  | [] => return
  | f :: fs => do
    let size := frameSizeText (symbols.frameSize? f.name)
    Reporting.report .debug ("codegen: function '" ++ f.name ++ "' frame size " ++ size)
    reportFrames symbols fs

/-- Makes machine code and reports the result. -/
def reportMachine (ir : Ir.Program) (symbols : SymbolTable) :
    Reporting (Machine.Program × Machine.SymbolTable) := do
  let (code, machineSymbols) ← Reporting.step (CompileError.ofFaulting (ir.toMachine symbols))
  reportFrames machineSymbols code.functions
  Reporting.report .trace ("asm:\n" ++ code.listing)
  return (code, machineSymbols)

/-- Writes assembly and reports the result. -/
def reportAssembly (options : Options) (code : Machine.Program) : Reporting (String × StringPool) := do
  let (text, pool) ← Reporting.step (CompileError.ofFaulting (code.toAssembly options))
  Reporting.report .debug s!"emit: {pool.size} pooled string literals"
  return (text, pool)

/-- All stages with their reports, up to the listing that is asked for. -/
def reportStages (options : Options) (p : Program) : Reporting Output := do
  let (p, symbols) ← reportAnalysis p
  let (ir, symbols) ← reportLowering p symbols
  if options.printIr then return .irListing ir.listing
  else
    let (code, _) ← reportMachine ir symbols
    if options.printMachine then return .machineListing code.listing
    else
      let (text, _) ← reportAssembly options code
      return .assembly text

/-- Compiles a program and reports on it. -/
def compileReporting (options : Options) (p : Program) : Except CompileError Output × List Event :=
  Reporting.outcome (reportStages options p)

section Gives

open Reporting

/-- A step whose reports follow it gives what the step gives. -/
theorem gives_step_report {α : Type} (result : Except CompileError α) {f : α → Reporting α}
    (hf : ∀ a, Gives (f a) (.ok a)) : Gives (step result >>= f) result := by
  have h := (gives_step result).bind hf
  cases result <;> exact h

theorem gives_reportAnalysis (p : Program) : Gives (reportAnalysis p) p.analyze :=
  (gives_step (CompileError.ofRejecting p.resolve)).bind fun p => .report_bind _ _ <|
    (gives_step (CompileError.ofRejecting p.labelLoops)).bind fun p => .report_bind _ _ <|
      gives_step_report p.check fun _ => .report_bind _ _ (gives_pure _)

theorem gives_reportLowering (p : Program) (symbols : SymbolTable) :
    Gives (reportLowering p symbols) (CompileError.ofFaulting (p.lower symbols)) :=
  gives_step_report _ fun _ => .report_bind _ _ <| .report_bind _ _ (gives_pure _)

theorem gives_reportFrames (symbols : Machine.SymbolTable) : ∀ fs : List Machine.Function,
    Gives (reportFrames symbols fs) (.ok ())
  | [] => gives_pure ()
  | _ :: fs => .report_bind _ _ (gives_reportFrames symbols fs)

theorem gives_reportMachine (ir : Ir.Program) (symbols : SymbolTable) :
    Gives (reportMachine ir symbols) (CompileError.ofFaulting (ir.toMachine symbols)) :=
  gives_step_report _ fun (code, machineSymbols) =>
    (gives_reportFrames machineSymbols code.functions).bind (g := fun _ => .ok (code, machineSymbols)) fun _ =>
      .report_bind _ _ (gives_pure _)

theorem gives_reportAssembly (options : Options) (code : Machine.Program) :
    Gives (reportAssembly options code) (CompileError.ofFaulting (code.toAssembly options)) :=
  gives_step_report _ fun _ => .report_bind _ _ (gives_pure _)

theorem gives_reportStages (options : Options) (p : Program) : Gives (reportStages options p) (compile options p) := by
  refine (gives_reportAnalysis p).bind fun (p, symbols) => ?_
  refine (gives_reportLowering p symbols).bind fun (ir, symbols) => ?_
  dsimp only
  split
  · exact gives_pure _
  · refine (gives_reportMachine ir symbols).bind fun (code, _) => ?_
    dsimp only
    split
    · exact gives_pure _
    · exact (gives_reportAssembly options code).bind fun _ => gives_pure _

/-- Reports do not change the result. -/
theorem fst_compileReporting (options : Options) (p : Program) : (compileReporting options p).1 = compile options p :=
  fst_outcome (gives_reportStages options p)

end Gives

/-! ## Files -/

/-- A place for a file. -/
structure FilePlace where
  path : String
  /-- Why the system makes no file there, in its own words. -/
  obstacle : Option String := none
  deriving DecidableEq

/-- What a compilation into a file leaves. -/
structure FileOutcome where
  /-- A listing takes the place of the file. -/
  result : Except CompileError (Option Output)
  /-- The text of the file, if it was written. -/
  file : Option String
  events : List Event

/-- Compiles a program into a file. The file is opened only when there is something to write. -/
def compileToFile (options : Options) (place : FilePlace) (p : Program) : FileOutcome :=
  match compileReporting options p with
  | (.error e, events) => ⟨.error e, none, events⟩
  | (.ok (.assembly text), events) =>
    match place.obstacle with
    | some obstacle => ⟨.error (.output obstacle), none, events⟩
    | none =>
      let report := s!"wrote {text.utf8ByteSize} bytes of assembly to '" ++ place.path ++ "'"
      ⟨.ok none, some text, events ++ [⟨.debug, report⟩]⟩
  | (.ok listing, events) => ⟨.ok (some listing), none, events⟩

end Khel
