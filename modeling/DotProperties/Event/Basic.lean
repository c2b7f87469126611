import DotProperties.Text.Location

/-!
# Events

The structure of a document as a stream of events in text order. A construct reports the
offset of its first character when it starts and the offset behind its last one when it
stops, so that the two form a span. The delimiter between key and value is a single
character and reports once, as do a blank line and a character that may not stand in a
key or a value.
-/

namespace DotProperties

/-- A construct of a document. -/
inductive Construct where
  /-- The whole text. -/
  | document
  /-- A key with or without a value. -/
  | property
  /-- The key of a property. -/
  | key
  /-- The value of a property. -/
  | value
  /-- A stretch of a value that stands for itself. -/
  | literal
  /-- A stretch of a value that refers to another property. -/
  | expression
  /-- A comment line. -/
  | comment
  deriving DecidableEq

/-- A character that may not stand where it does. The document is read on past it. -/
structure InvalidCharacter where
  /-- The character. -/
  character : Char
  /-- Where it stands. -/
  offset : Nat
  /-- Where it stands, by line. A byte order mark does not count. -/
  position : Position
  deriving DecidableEq

/-- A control character in quotes, as an escape. -/
def quoteControl (c : Char) : String :=
  if c == '\u0000' then "'\\0'"
  else "'\\u\x7b" ++ String.ofList (Nat.toDigits 16 c.toNat) ++ "\x7d'"

namespace InvalidCharacter

/-- What is wrong. -/
def cause (e : InvalidCharacter) : String :=
  s!"invalid character {quoteControl e.character}, expected a valid string character"

/-- What is wrong and where, with lines and characters from one. -/
def message (e : InvalidCharacter) : String :=
  s!"{e.cause} at {e.position.line + 1}:{e.position.character + 1}"

end InvalidCharacter

/-- One event of a document. -/
inductive Event where
  /-- A construct starts at an offset. -/
  | start (construct : Construct) (offset : Nat)
  /-- A construct has stopped before an offset. -/
  | stop (construct : Construct) (offset : Nat)
  /-- The delimiter of a property stands at an offset. -/
  | assign (offset : Nat)
  /-- A blank line ends at an offset. -/
  | blankLine (offset : Nat)
  /-- A character that may not stand where it does. -/
  | invalid (error : InvalidCharacter)
  deriving DecidableEq

namespace Event

/-- The offset that an event reports. -/
def offset : Event → Nat
  | start _ o => o
  | stop _ o => o
  | assign o => o
  | blankLine o => o
  | invalid e => e.offset

/-- The invalid character that an event reports. -/
def invalid? : Event → Option InvalidCharacter
  | invalid e => some e
  | _ => none

/-- The event starts a comment or is a blank line. -/
def isTrivia : Event → Bool
  | start .comment _ => true
  | blankLine _ => true
  | _ => false

end Event

end DotProperties
