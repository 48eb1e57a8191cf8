import Khel.Span

/-!
# The text a program was read from

A diagnostic quotes the line it is about. `SourceText.lineAt` finds that line: it looks for the last line end in front
of the offset and for the first one behind it, and takes what is between them.
-/

namespace Khel

/-- A named text. -/
structure SourceText where
  name : String := ""
  text : String := ""

/-- One line of a text, and a place in it. -/
structure SourceLine where
  /-- Lines count from one. -/
  number : Nat
  /-- The line without its line end. -/
  text : String
  /-- How many characters of the line stand before the place. -/
  column : Nat
  deriving DecidableEq

/-- The place of the last line end in a text. -/
def lastLineEnd? (chars : List Char) : Option Nat :=
  (chars.reverse.findIdx? (· == '\n')).map fun back => chars.length - 1 - back

/-- The line that holds the start of a span; an offset past the end of the text means the end of its last line. -/
def SourceText.lineAt (source : SourceText) (span : Span) : SourceLine :=
  let chars := source.text.toList
  let offset := min span.offset chars.length
  let start := ((lastLineEnd? (chars.take offset)).map (· + 1)).getD 0
  let stop := (((chars.drop offset).findIdx? (· == '\n')).map (offset + ·)).getD chars.length
  { number := 1 + (chars.take start).count '\n'
    text := String.ofList ((chars.take stop).drop start)
    column := offset - start }

end Khel
