import DotProperties.Glob.Name

/-!
# Reading globs

`NameGlob.parse?` reads a glob from its text, character by character, with one character of
lookahead. Open braces are kept on a stack of `Alternation`s. The text is refused if a
class or a brace is not closed, a brace was not opened, a range runs backwards, or a
backslash has nothing behind it.

Two stars next to each other stand for whole path components only where a component can
begin and end : at the start of an alternative before a slash or the end of the text,
behind a slash before a slash, and behind a slash at the end of the text or of the
alternative. The slashes around them belong to them. Anywhere else they are two stars.
-/

namespace DotProperties

/-- The alternatives of braces that are open. -/
structure Alternation where
  /-- The finished alternatives, each one as its parts, latest first. -/
  branches : List (List Glob)
  /-- The parts of the alternative under way, latest first. -/
  current : List Glob

/-- A class that is being read. -/
structure ClassDraft where
  /-- The class is negated. -/
  negated : Bool
  /-- The first and last character of each range, latest range first. -/
  ranges : List (Char × Char)
  /-- A hyphen was read that makes the next character the last one of the latest range. -/
  inRange : Bool

/-- What the next character of a glob is. -/
inductive GlobMode where
  /-- The start of a new part. -/
  | part
  /-- A character that stands for itself. -/
  | escaped
  /-- The second of two stars, with the character before the first one. -/
  | secondStar (before : Option Char)
  /-- The slash that belongs to two stars before it. -/
  | swallowed
  /-- The character that negates a class. -/
  | negation
  /-- A character of a class that has none yet. -/
  | classStart (negated : Bool)
  /-- A character of a class, or its end. -/
  | inClass (draft : ClassDraft)

/-- A glob being read. -/
structure GlobReader where
  /-- What comes next. -/
  mode : GlobMode
  /-- The character before. -/
  last : Option Char
  /-- The parts outside of all braces, latest first. -/
  parts : List Glob
  /-- The open braces, innermost first. -/
  stack : List Alternation

namespace ByteClass

/-- The byte ranges of a range of characters : the first character's bytes and the last
one's, each byte on its own, but with a range from the last byte of the one to the first
byte of the other. -/
def ofRange (range : Char × Char) : List (UInt8 × UInt8) :=
  let single (bytes : List UInt8) := bytes.map fun b => (b, b)
  let first := String.utf8EncodeChar range.1
  if range.1 = range.2 then single first
  else
    let last := String.utf8EncodeChar range.2
    single first.dropLast ++ [(first.getLastD 0, last.headD 0)] ++ single (last.drop 1)

/-- The class of ranges of characters. -/
def ofRanges (negated : Bool) (ranges : List (Char × Char)) : ByteClass :=
  ⟨negated, ranges.flatMap ofRange⟩

end ByteClass

/-- Take in a character of a class other than the bracket that closes it. -/
def ClassDraft.add? (d : ClassDraft) (c : Char) : Option ClassDraft :=
  match d.inRange, d.ranges with
  | true, (first, _) :: ranges =>
    if c < first then none else some { d with ranges := (first, c) :: ranges, inRange := false }
  | _, ranges =>
    if c = '-' then some { d with inRange := true }
    else some { d with ranges := (c, c) :: ranges }

/-- The class, once it is closed. A hyphen at the end stands for itself. -/
def ClassDraft.close (d : ClassDraft) : ByteClass :=
  let ranges := if d.inRange then ('-', '-') :: d.ranges else d.ranges
  .ofRanges d.negated ranges.reverse

namespace Glob

/-- Parts that say nothing : an alternative of such parts is dropped. -/
def saysNothing (parts : List Glob) : Bool := parts.all (· == .empty)

/-- The glob of alternatives, each one as its parts in reverse order. -/
def ofBranches (branches : List (List Glob)) : Glob :=
  match (branches.filter fun parts => !saysNothing parts).map (sequence ·.reverse) with
  | [] => .empty
  | g :: others => .group (others.foldl .alt g)

end Glob

namespace GlobReader

/-- Before the first character. -/
def initial : GlobReader := ⟨.part, none, [], []⟩

/-- The parts of the innermost alternative, latest first. -/
def current (r : GlobReader) : List Glob :=
  match r.stack with
  | [] => r.parts
  | a :: _ => a.current

/-- The reader with other parts in its innermost alternative. -/
def setCurrent (r : GlobReader) (parts : List Glob) : GlobReader :=
  match r.stack with
  | [] => { r with parts := parts }
  | a :: stack => { r with stack := { a with current := parts } :: stack }

/-- The reader after a part, with a new one to come. -/
def push (r : GlobReader) (g : Glob) : GlobReader :=
  { r.setCurrent (g :: r.current) with mode := .part }

/-- The reader with the latest part of the innermost alternative replaced. -/
def replaceLatest (r : GlobReader) (g : Glob) : GlobReader :=
  { r.setCurrent (g :: r.current.drop 1) with mode := .part }

/-- Close the innermost braces. -/
def closeBraces? (r : GlobReader) : Option GlobReader :=
  match r.stack with
  | [] => none
  | a :: stack =>
    some ({ r with stack := stack }.push (Glob.ofBranches (a.branches ++ [a.current])))

/-- Start the next alternative, or read a comma that stands for itself. -/
def comma (r : GlobReader) : GlobReader :=
  match r.stack with
  | [] => r.push (.literal ',')
  | a :: stack =>
    { r with stack := ⟨a.branches ++ [a.current], []⟩ :: stack }

/-- Two stars that are nothing but two stars. -/
def twoStars (r : GlobReader) : GlobReader := (r.push .star).push .star

/-- An alternative starts behind the character `before`, or a path component does. -/
def beginsComponent (r : GlobReader) (before : Option Char) : Bool :=
  before == some '/' || (!r.stack.isEmpty && (before == some ',' || before == some '{'))

/-- An alternative or the text ends before the character `next`. -/
def endsBefore (r : GlobReader) (next : Option Char) : Bool :=
  next == none || (!r.stack.isEmpty && (next == some ',' || next == some '}'))

/-- Two stars behind the part that begins a path component. That part, a slash, belongs
to them, unless it is two stars already that reach as far. -/
def componentStars (r : GlobReader) (g : Glob) : GlobReader :=
  match r.current with
  | .leading :: _ | .trailing :: _ => { r with mode := .part }
  | _ => r.replaceLatest g

/-- Read two stars with `before` in front of them and `next` behind. -/
def doubleStar (r : GlobReader) (before next : Option Char) : GlobReader :=
  if r.current.isEmpty then
    if next == some '/' then { r.push .leading with mode := .swallowed }
    else if next == none then r.push .leading
    else r.twoStars
  else if !r.beginsComponent before then r.twoStars
  else if r.endsBefore next then r.componentStars .trailing
  else if next == some '/' then { r.componentStars .inner with mode := .swallowed }
  else r.twoStars

/-- Read the first character of a part, with `next` behind it. -/
def readPart? (r : GlobReader) (c : Char) (next : Option Char) : Option GlobReader :=
  match c with
  | '?' => some (r.push .any)
  | '*' =>
    if next == some '*' then some { r with mode := .secondStar r.last } else some (r.push .star)
  | '[' =>
    if next == some '!' || next == some '^' then some { r with mode := .negation }
    else some { r with mode := .classStart false }
  | '{' => some { r with stack := ⟨[], []⟩ :: r.stack }
  | '}' => r.closeBraces?
  | ',' => some r.comma
  | '\\' => some { r with mode := .escaped }
  | c => some (r.push (.literal c))

/-- Read a character with `next` behind it. -/
def read? (r : GlobReader) (c : Char) (next : Option Char) : Option GlobReader := do
  let r' ← match r.mode with
    | .part => r.readPart? c next
    | .escaped => some (r.push (.literal c))
    | .secondStar before => some (r.doubleStar before next)
    | .swallowed => some { r with mode := .part }
    | .negation => some { r with mode := .classStart true }
    | .classStart negated => some { r with mode := .inClass ⟨negated, [(c, c)], false⟩ }
    | .inClass draft =>
      if c == ']' then some (r.push (.byteClass draft.close))
      else (draft.add? c).map fun d => { r with mode := .inClass d }
  return { r' with last := some c }

/-- Read the rest of a glob. -/
def readAll? (r : GlobReader) : Text → Option GlobReader
  | [] => some r
  | c :: t => (r.read? c t.head?).bind fun r' => r'.readAll? t

/-- The glob, if the text may end here. -/
def finish? (r : GlobReader) : Option NameGlob :=
  match r.mode, r.stack with
  | .part, [] => some ⟨r.parts.reverse⟩
  | _, _ => none

end GlobReader

/-- Read a glob. -/
def NameGlob.parse? (t : Text) : Option NameGlob :=
  (GlobReader.initial.readAll? t).bind GlobReader.finish?

end DotProperties
