import Khel.Target

/-!
# Commands that finish the job

The text of a program still has to be assembled and linked. The commands for that are made here and run elsewhere.
-/

namespace Khel

/-- A program to run, and its arguments. -/
structure Command where
  program : String
  args : List String
  deriving DecidableEq

/-- The tools for a target, on a host that may have another kind of processor. -/
structure Toolchain where
  target : Target
  armHost : Bool := false
  deriving DecidableEq

/-- An argument as it can be handed to a program. Arguments end at their first NUL, so a text that holds one cannot be
handed on, and a mark takes its place. -/
def Command.argument (text : String) : String :=
  if text.toList.contains '\x00' then "<string-with-nul>" else text

namespace Toolchain

/-- Where the system libraries are described on one of the targets. -/
def darwinSdk : String := "/Library/Developer/CommandLineTools/SDKs/MacOSX.sdk"

/-- Runs a tool, through the emulator where the processor needs it. -/
def tool (chain : Toolchain) (program : String) (args : List String) : Command :=
  let args := args.map Command.argument
  if chain.target = .darwin && chain.armHost then ⟨"arch", "-x86_64" :: program :: args⟩ else ⟨program, args⟩

/-- Assembles `source` into `object`. -/
def assemble (chain : Toolchain) (source object : String) : Command :=
  let arch := if chain.target = .darwin then ["-arch", "x86_64"] else []
  chain.tool "as" (arch ++ ["-o", object, source])

/-- Links `object` with some libraries into `executable`. -/
def link (chain : Toolchain) (object executable : String) (libraries : List String) : Command :=
  let system :=
    if chain.target = .darwin then
      ["-arch", "x86_64", "-e", "_main", "-no_pie", "-lSystem", "-syslibroot", darwinSdk]
    else []
  chain.tool "ld" (system ++ ["-o", executable, object] ++ libraries)

end Toolchain

end Khel
