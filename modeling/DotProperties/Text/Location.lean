/-!
# Places in a text

A place in a document is named in two ways. An *offset* counts the characters before
it. A `Position` gives its line and the characters before it on that line, both from
zero. A `Span` is a half-open stretch of offsets and a `Range` is one of positions.

A place outside the document is never moved to the nearest one inside it : every
conversion between the two kinds of place answers with a `LocationError` instead,
which records the limit that was passed.
-/

namespace DotProperties

/-- A text, character by character. Every offset counts these characters. -/
abbrev Text := List Char

/-- A line and a character on it, both from zero. -/
structure Position where
  /-- Number of lines before. -/
  line : Nat
  /-- Number of characters before on the same line. -/
  character : Nat
  deriving DecidableEq, Inhabited

/-- The positions from `start` up to, and without, `stop`. -/
structure Range where
  /-- The first position. -/
  start : Position
  /-- One past the last position. -/
  stop : Position
  deriving DecidableEq, Inhabited

/-- The offsets from `start` up to, and without, `stop`. -/
structure Span where
  /-- The first offset. -/
  start : Nat
  /-- One past the last offset. -/
  stop : Nat
  deriving DecidableEq, Inhabited

namespace Span

/-- Number of characters in the span, none if its ends are reversed. -/
def length (s : Span) : Nat := s.stop - s.start

/-- The span holds no character. -/
def isEmpty (s : Span) : Bool := s.stop ≤ s.start

/-- `offset` is in the span or right after it, where a cursor behind the last
character stands. -/
def touches (s : Span) (offset : Nat) : Bool := s.start ≤ offset && offset ≤ s.stop

/-- The span of the one character at `offset`. -/
def single (offset : Nat) : Span := ⟨offset, offset + 1⟩

end Span

/-- A place that is not in the document. -/
inductive LocationError where
  /-- An offset past the end of a text of the given length. -/
  | offset (offset length : Nat)
  /-- A line that a text of `lines` lines does not have. -/
  | line (line lines : Nat)
  /-- A character past the content of its line. -/
  | character (line character length : Nat)
  deriving DecidableEq

/-- What is told about a place that is not in the document. -/
def LocationError.message : LocationError → String
  | .offset o n => s!"offset {o} is outside of the document (length {n})"
  | .line l n => s!"line {l} is outside of the document ({n} lines)"
  | .character l c n => s!"character {c} is outside of line {l} (length {n})"

end DotProperties
