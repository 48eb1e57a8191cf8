/-!
# Spans of source text

A span is a run of characters of the source. Offsets and lengths count characters, so a line of carets printed under
a Cyrillic line of source stands where it should. An empty span stands for "nowhere".

* `Span.hull` is the least span that holds two non-empty ones; an empty span adds nothing to it.
-/

namespace Khel

/-- A run of characters: the offset of the first one, and how many there are. -/
structure Span where
  offset : Nat
  length : Nat
  deriving DecidableEq

namespace Span

/-- The span of a node that stands nowhere in the source. -/
def nowhere : Span := ⟨0, 0⟩

/-- A span of no characters points at nothing, whatever its offset. -/
def isEmpty (s : Span) : Bool := s.length == 0

/-- The offset one past the last character. -/
def stop (s : Span) : Nat := s.offset + s.length

/-- The least span that holds both; an empty span gives way to the other one. -/
def hull (s t : Span) : Span :=
  if s.isEmpty then t
  else if t.isEmpty then s
  else
    let start := min s.offset t.offset
    ⟨start, max s.stop t.stop - start⟩

/-- The text of a span. -/
def text (s : Span) : String := s!"pos: {s.offset}, len: {s.length}"

end Span

end Khel
