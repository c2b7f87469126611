import DotProperties.Text.Location

/-!
# Lines

A line ends at a line feed, at a carriage return, or at the two in that order, which
count as one terminator. No other character ends a line. `Text.endsLine` says it of
one character and the one behind it, so that a carriage return with a line feed behind
it is still on its line and the line feed ends it.

`Text.positionAt?` walks from the start of a text to an offset and keeps the position.
`Text.offsetAt` goes the other way : it finds the start of a line (`Text.lineFrom?`)
and admits the characters of the line's content, which its terminator is not part of.
-/

namespace DotProperties

/-- A character of a line terminator. -/
def isTerminator (c : Char) : Bool := c == '\n' || c == '\r'

/-- A blank inside a line : a space or a tab. -/
def isSpacing (c : Char) : Bool := c == ' ' || c == '\t'

/-- The position after a character at `p`, if that character `ends` the line or not. -/
def Position.after (p : Position) (ends : Bool) : Position :=
  if ends then ⟨p.line + 1, 0⟩ else ⟨p.line, p.character + 1⟩

namespace Text

/-- `c`, with `next` behind it, is the last character of its line. -/
def endsLine (c : Char) (next : Option Char) : Bool :=
  c == '\n' || (c == '\r' && next != some '\n')

/-- Number of line ends. -/
def breaks : Text → Nat
  | [] => 0
  | c :: t => breaks t + (if endsLine c t.head? then 1 else 0)

/-- Number of lines : one more than there are line ends. -/
def lineCount (t : Text) : Nat := t.breaks + 1

/-- The position `offset` characters into a text that starts at `p`. -/
def walk (p : Position) : Text → Nat → Option Position
  | _, 0 => some p
  | [], _ + 1 => none
  | c :: t, offset + 1 => walk (p.after (endsLine c t.head?)) t offset

/-- The position of `offset`. -/
def positionAt? (t : Text) (offset : Nat) : Option Position := walk ⟨0, 0⟩ t offset

/-- The offset at which a line starts, and the text from there on. The text given starts
at the offset `start`, and the number given counts the line ends still to pass. -/
def lineFrom? (start : Nat) : Text → Nat → Option (Nat × Text)
  | t, 0 => some (start, t)
  | [], _ + 1 => none
  | c :: t, line + 1 =>
    lineFrom? (start + 1) t (if endsLine c t.head? then line else line + 1)

/-- The first line of `t` without its terminator. -/
def content (t : Text) : Text := t.takeWhile fun c => !isTerminator c

/-- The terminator of the first line of `t`, if it has one. -/
def terminator? (t : Text) : Option Text :=
  match t.dropWhile fun c => !isTerminator c with
  | '\r' :: '\n' :: _ => some ['\r', '\n']
  | c :: _ => some [c]
  | [] => none

/-- The offset of a position. -/
def offsetAt (t : Text) (p : Position) : Except LocationError Nat :=
  match lineFrom? 0 t p.line with
  | none => .error (.line p.line t.lineCount)
  | some (start, rest) =>
    let length := rest.content.length
    if p.character ≤ length then .ok (start + p.character)
    else .error (.character p.line p.character length)

/-- The characters of a span. -/
def slice (t : Text) (s : Span) : Text := (t.drop s.start).take s.length

/-- `t` with the characters of `s` replaced by `new`. -/
def splice (t : Text) (s : Span) (new : Text) : Text := t.take s.start ++ new ++ t.drop s.stop

end Text

end DotProperties
