import DotProperties.Cancellation
import DotProperties.Event.Basic
import DotProperties.Text.Lines

/-!
# Scanning a text

`Event.scan` reads a text character by character. What has been read so far is summed up
in a `Mode`, and a character is answered with events and a new mode. The rules, line by
line :

* Behind leading spacing, `#` and `;` start a comment, and a line with nothing else is
  blank. Either ends a property that the line before left open.
* A key runs up to `=`, `:` or spacing. After a key come spacing, one delimiter, spacing
  and the value. Without a delimiter the rest of the line is skipped.
* A value is a row of literals and expressions. `$` starts an expression; with a `{`
  behind it the expression runs up to and including the first `}`, otherwise it is the
  `$` alone.
* A backslash takes away the meaning of the character behind it. Before a line terminator
  it keeps the key, literal or expression open, and the next line goes on with it behind
  its leading spacing.
* A control character other than a tab is reported where it is part of a key or value.

Whatever is open at the end of the text stops there. A byte order mark at the start of
the text is skipped. A poll comes before the first character of each line.
-/

namespace DotProperties

/-- A stretch of characters that a continuation can keep open. -/
inductive Run where
  /-- A key. -/
  | key
  /-- A literal of a value. -/
  | literal
  /-- An expression of a value. -/
  | expression
  deriving DecidableEq

/-- What the characters read so far mean for the next one. -/
inductive Mode where
  /-- Nothing was read. -/
  | start
  /-- At the start of a line, with a run left open by the line before. -/
  | lineStart (pending : Option Run)
  /-- As at the start of a line, but a line feed would still belong to the terminator of
  the line before. -/
  | afterReturn (pending : Option Run)
  /-- In the leading spacing of a line. -/
  | indent (pending : Option Run)
  /-- In a run. -/
  | run (r : Run)
  /-- In a run, behind a backslash. -/
  | escape (r : Run)
  /-- In the spacing behind a key. -/
  | afterKey
  /-- In what is skipped behind a key without a delimiter. -/
  | skipped
  /-- In the spacing behind a delimiter. -/
  | afterAssign
  /-- In a value, behind an expression. -/
  | between
  /-- Behind the `$` of an expression. -/
  | dollar
  /-- In a comment. -/
  | comment
  deriving DecidableEq

/-- The place of the next character. -/
structure Place where
  /-- Number of characters before. -/
  offset : Nat
  /-- Its position, a byte order mark not counted. -/
  position : Position
  deriving DecidableEq

/-- The events at which a run stops together with the constructs around it. -/
def Run.close (r : Run) (offset : Nat) : List Event :=
  match r with
  | .key => [.stop .key offset, .stop .property offset]
  | .literal => [.stop .literal offset, .stop .value offset, .stop .property offset]
  | .expression => [.stop .expression offset, .stop .value offset, .stop .property offset]

/-- The events that close a run left open, if there is one. -/
def closePending (pending : Option Run) (offset : Nat) : List Event :=
  match pending with
  | some r => r.close offset
  | none => []

/-- A character that is reported inside a run. -/
def isInvalid (c : Char) : Bool := c < ' ' && c != '\t'

/-- The report on a character that is part of a run. -/
def report (p : Place) (c : Char) : List Event :=
  if isInvalid c then [.invalid ⟨c, p.offset, p.position⟩] else []

namespace Mode

/-- A run reads `c`, which ends no line. -/
def onRun (r : Run) (p : Place) (c : Char) : List Event × Mode :=
  if c == '\\' then ([], escape r)
  else
    match r with
    | .key =>
      if c == '=' || c == ':' then ([.stop .key p.offset, .assign p.offset], afterAssign)
      else if isSpacing c then ([.stop .key p.offset], afterKey)
      else (report p c, run .key)
    | .literal =>
      if c == '$' then ([.stop .literal p.offset, .start .expression p.offset], dollar)
      else (report p c, run .literal)
    | .expression =>
      if c == '}' then ([.stop .expression (p.offset + 1)], between)
      else (report p c, run .expression)

/-- A value reads `c`, which ends no line, where no fragment is open. -/
def onFragment (p : Place) (c : Char) : List Event × Mode :=
  if c == '$' then ([.start .expression p.offset], dollar)
  else
    let (events, mode) := onRun .literal p c
    (.start .literal p.offset :: events, mode)

/-- A line reads its first character `c` that is no spacing, which ends no line. -/
def onContent (pending : Option Run) (p : Place) (c : Char) : List Event × Mode :=
  if c == '#' || c == ';' then
    (closePending pending p.offset ++ [.start .comment p.offset], comment)
  else
    match pending with
    | some r => onRun r p c
    | none =>
      let (events, mode) := onRun .key p c
      (.start .property p.offset :: .start .key p.offset :: events, mode)

/-- A line reads `c`, which ends no line, behind leading spacing only. -/
def onIndent (pending : Option Run) (p : Place) (c : Char) : List Event × Mode :=
  if isSpacing c then ([], indent pending) else onContent pending p c

/-- Read `c`, which ends no line. -/
def onCharacter (m : Mode) (p : Place) (c : Char) : List Event × Mode :=
  match m with
  | start => if c == '\uFEFF' then ([], lineStart none) else onIndent none p c
  | lineStart pending | afterReturn pending | indent pending => onIndent pending p c
  | run r => onRun r p c
  | escape r => (report p c, run r)
  | afterKey =>
    if isSpacing c then ([], afterKey)
    else if c == '=' || c == ':' then ([.assign p.offset], afterAssign)
    else ([], skipped)
  | skipped => ([], skipped)
  | afterAssign =>
    if isSpacing c then ([], afterAssign)
    else
      let (events, mode) := onFragment p c
      (.start .value p.offset :: events, mode)
  | between => onFragment p c
  | dollar =>
    if c == '{' then ([], run .expression)
    else
      let (events, mode) := onFragment p c
      (.stop .expression p.offset :: events, mode)
  | comment => ([], comment)

/-- The events at the end of a line, and the run that the next line goes on with. -/
def onLineEnd (m : Mode) (offset : Nat) : List Event × Option Run :=
  match m with
  | start => ([.blankLine offset], none)
  | lineStart pending | afterReturn pending | indent pending =>
    (closePending pending offset ++ [.blankLine offset], none)
  | run r => (r.close offset, none)
  | escape r => ([], some r)
  | afterKey | skipped => ([.stop .property offset], none)
  | afterAssign => ([.start .value offset, .stop .value offset, .stop .property offset], none)
  | between => ([.stop .value offset, .stop .property offset], none)
  | dollar =>
    ([.stop .expression offset, .stop .value offset, .stop .property offset], none)
  | comment => ([.stop .comment offset], none)

/-- The events at the end of the text, before the document stops. It differs from the end
of a line where no line was begun, behind a backslash, and behind a delimiter, where a
value would start on the next character. -/
def onTextEnd (m : Mode) (offset : Nat) : List Event :=
  match m with
  | start => []
  | lineStart pending | afterReturn pending => closePending pending offset
  | escape r => r.close offset
  | afterAssign => [.stop .property offset]
  | m => (m.onLineEnd offset).1

/-- A line feed read now belongs to the terminator of the line before. -/
def completesTerminator (m : Mode) (c : Char) : Bool :=
  match m with
  | afterReturn _ => c == '\n'
  | _ => false

/-- A byte order mark read now stands at the start of the text. -/
def isByteOrderMark (m : Mode) (c : Char) : Bool := m == start && c == '\uFEFF'

/-- Reading `c` begins a line. -/
def beginsLine (m : Mode) (c : Char) : Bool :=
  match m with
  | start => c != '\uFEFF'
  | lineStart _ => true
  | afterReturn _ => c != '\n'
  | _ => false

/-- The run that a line would go on with. -/
def pending : Mode → Option Run
  | lineStart pending | afterReturn pending | indent pending => pending
  | _ => none

/-- Read a character : the events it gives and the mode after it. -/
def read (m : Mode) (p : Place) (c : Char) : List Event × Mode :=
  if m.completesTerminator c then ([], lineStart m.pending)
  else if isTerminator c then
    let (events, pending) := m.onLineEnd p.offset
    (events, if c == '\r' then afterReturn pending else lineStart pending)
  else m.onCharacter p c

end Mode

/-- The place behind the character `c` that is read in the mode `m`. -/
def Place.after (p : Place) (m : Mode) (c : Char) : Place :=
  ⟨p.offset + 1,
    if m.completesTerminator c || m.isByteOrderMark c then ⟨p.position.line, 0⟩
    else if isTerminator c then ⟨p.position.line + 1, 0⟩
    else ⟨p.position.line, p.position.character + 1⟩⟩

/-- A scan under way. -/
structure Scanner where
  /-- What the characters read so far mean for the next one. -/
  mode : Mode
  /-- Where the next character stands. -/
  place : Place
  deriving DecidableEq

namespace Scanner

/-- Before the first character. -/
def initial : Scanner := ⟨.start, 0, 0, 0⟩

/-- After reading a character. -/
def next (s : Scanner) (c : Char) : Scanner :=
  ⟨(s.mode.read s.place c).2, s.place.after s.mode c⟩

/-- The steps that a character gives. -/
def steps (s : Scanner) (c : Char) : List (Step Event) :=
  let events := (s.mode.read s.place c).1.map Step.yield
  if s.mode.beginsLine c then .poll :: events else events

/-- The steps at the end of the text. -/
def finish (s : Scanner) : List (Step Event) :=
  let offset := s.place.offset
  (s.mode.onTextEnd offset ++ [Event.stop .document offset]).map Step.yield

/-- The steps that the rest of a text gives. -/
def scan (s : Scanner) : Text → List (Step Event)
  | [] => s.finish
  | c :: t => s.steps c ++ (s.next c).scan t

end Scanner

namespace Event

/-- The scan of a whole text. -/
def scan (t : Text) : List (Step Event) :=
  .yield (.start .document 0) :: Scanner.initial.scan t

/-- The events of a whole text. -/
def ofText (t : Text) : List Event := Step.results (scan t)

end Event

end DotProperties
