import DotProperties.Text.Lines

/-!
# Buffers

A `Buffer` is the text of one document at one version, under the name it is addressed
by. It converts between offsets and positions and takes edits. A list of changes is
applied in order, each one to the text that the changes before it left, and either all
of them are applied or the buffer stays as it was.
-/

namespace DotProperties

/-- Replaces the characters of a range, or the whole text if there is none. -/
structure Change where
  /-- What is replaced. Its ends may come in either order. -/
  range : Option Range
  /-- What it is replaced by. -/
  text : Text
  deriving DecidableEq

/-- The span of a range in a text. -/
def Text.spanOf (t : Text) (r : Range) : Except LocationError Span := do
  let start ← t.offsetAt r.start
  let stop ← t.offsetAt r.stop
  return ⟨start, stop⟩

/-- `s` with its ends in order. -/
def Span.sorted (s : Span) : Span := ⟨min s.start s.stop, max s.start s.stop⟩

/-- The text after a change. -/
def Change.apply (c : Change) (t : Text) : Except LocationError Text :=
  match c.range with
  | none => .ok c.text
  | some range => return t.splice (← t.spanOf range).sorted c.text

/-- The text after all changes. -/
def Change.applyAll (cs : List Change) (t : Text) : Except LocationError Text :=
  cs.foldlM (fun t c => c.apply t) t

/-- The text of a document at one version. -/
structure Buffer where
  /-- The name of the document. -/
  uri : String
  /-- Its text. -/
  text : Text
  /-- The version of the text. -/
  version : Int
  deriving DecidableEq

namespace Buffer

/-- Number of characters. -/
def length (b : Buffer) : Nat := b.text.length

/-- Number of lines. -/
def lineCount (b : Buffer) : Nat := b.text.lineCount

/-- The buffer with another text and version. -/
def setText (b : Buffer) (text : Text) (version : Int) : Buffer :=
  { b with text := text, version := version }

/-- The buffer after a list of changes. -/
def applyChanges (b : Buffer) (changes : List Change) (version : Int) :
    Except LocationError Buffer :=
  return b.setText (← Change.applyAll changes b.text) version

/-- The character at an offset. -/
def charAt? (b : Buffer) (offset : Nat) : Option Char := b.text[offset]?

/-- The characters of a span that lies in the document. -/
def slice? (b : Buffer) (s : Span) : Option Text :=
  if s.start ≤ s.stop ∧ s.stop ≤ b.length then some (b.text.slice s) else none

/-- The offset of a position. -/
def offsetAt (b : Buffer) (p : Position) : Except LocationError Nat := b.text.offsetAt p

/-- The position of an offset. -/
def positionAt (b : Buffer) (offset : Nat) : Except LocationError Position :=
  match b.text.positionAt? offset with
  | some p => .ok p
  | none => .error (.offset offset b.length)

/-- The range of a span. -/
def rangeOf (b : Buffer) (s : Span) : Except LocationError Range := do
  let start ← b.positionAt s.start
  let stop ← b.positionAt s.stop
  return ⟨start, stop⟩

/-- The span of a range. -/
def spanOf (b : Buffer) (r : Range) : Except LocationError Span := b.text.spanOf r

/-- The terminator of a line, if the line exists and has one. -/
def terminator? (b : Buffer) (line : Nat) : Option Text :=
  (Text.lineFrom? 0 b.text line).bind fun (_, rest) => rest.terminator?

/-- The terminator of a line, or that of the first line, or a line feed. -/
def lineDelimiter (b : Buffer) (line : Nat) : Text :=
  (b.terminator? line <|> b.terminator? 0).getD ['\n']

end Buffer

end DotProperties
