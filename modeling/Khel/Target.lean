/-!
# Targets

The two systems that assembly can be written for spell names differently: one puts an underscore in front of every
symbol, and they mark the labels that stay inside the assembler in two ways.
-/

namespace Khel

/-- The system that runs the result. -/
inductive Target where
  | linux | darwin
  deriving DecidableEq

namespace Target

/-- The name of a target. -/
def text : Target → String
  | .linux => "linux"
  | .darwin => "darwin"

/-- A symbol as the assembler knows it. -/
def symbol : Target → String → String
  | .linux, name => name
  | .darwin, name => "_" ++ name

/-- A label that the assembler keeps to itself. -/
def localLabel : Target → String → String
  | .linux, name => ".L" ++ name
  | .darwin, name => "L" ++ name

end Target

end Khel
