import DotProperties.Document.Tree
import DotProperties.Event.Scan
import DotProperties.Text.Buffer
import DotProperties.Text.Continuation

/-!
# Documents

A `Document` is a buffer with the tree of its text and the invalid characters found in
it. It is built once, from the events of the text (`Document.ofBuffer`), and resolves the
text of a key or a value from its span. It keeps the characters of the text in an array,
so that a short span costs little wherever it stands (`Document.raw_eq_slice`).

A key `%dev.name` belongs to the profile `dev`. The profile is cut from the key as it is
written, up to the first dot; names are logical, with continuations removed.
-/

namespace DotProperties

/-- A document at one version. -/
structure Document where
  /-- The text it was read from. -/
  buffer : Buffer
  /-- Its structure. -/
  tree : Tree
  /-- The invalid characters in keys and values, in order. -/
  errors : List InvalidCharacter
  /-- The characters of the text, by their offset. -/
  chars : Array Char := buffer.text.toArray
  /-- The characters are those of the buffer. -/
  chars_eq : chars = buffer.text.toArray := by rfl
  deriving DecidableEq

namespace Document

/-- The document that a stream of events describes. -/
def ofEvents (b : Buffer) (events : List Event) : Document :=
  { buffer := b, tree := .ofEvents events, errors := events.filterMap Event.invalid? }

/-- The document of a buffer. -/
def ofBuffer (b : Buffer) : Document := ofEvents b (Event.ofText b.text)

/-- The document of a buffer, read while a checker may cancel it. -/
def read {σ : Type} (check : Checker σ) (s : σ) (b : Buffer) : Option Document × σ :=
  let outcome := Step.run check s (Event.scan b.text)
  (if outcome.cancelled then none else some (ofEvents b outcome.results), outcome.state)

/-- The properties, in order. -/
def properties (d : Document) : List Property := d.tree.properties

/-- The text of a span as it is written. -/
def raw (d : Document) (s : Span) : Text := (d.chars.extract s.start s.stop).toList

theorem raw_eq_slice (d : Document) (s : Span) : d.raw s = d.buffer.text.slice s := by
  rw [raw, d.chars_eq, Array.toList_extract, List.extract_eq_take_drop]
  rfl

/-- The text of a span with its continuations removed. -/
def logical (d : Document) (s : Span) : Text := (d.raw s).join

/-- The text of a span that lies in the document, with its continuations removed if
`joined`. -/
def text? (d : Document) (s : Span) (joined : Bool) : Option Text :=
  (d.buffer.slice? s).map fun t => if joined then t.join else t

/-! ## Keys -/

/-- Number of characters of a raw key before the dot that ends its profile, or all of
them if there is no dot. There is no profile without a `%` in front. -/
def profileLength? (key : Text) : Option Nat :=
  if key.head? = some '%' then some (key.takeWhile (· != '.')).length else none

/-- The profile of a property. -/
def profile? (d : Document) (p : Property) : Option Text :=
  let key := d.raw p.key
  (profileLength? key).map fun n => (key.take n).drop 1

/-- The name of a property behind its profile. A key that is all profile has none. -/
def name? (d : Document) (p : Property) : Option Text :=
  let key := d.raw p.key
  match profileLength? key with
  | some n => if n < key.length then some (Text.join (key.drop (n + 1))) else none
  | none => some key.join

/-- The name of a property behind its profile, empty if it has none. -/
def name (d : Document) (p : Property) : Text := (d.name? p).getD []

/-- The name of a property together with its profile. -/
def fullName (d : Document) (p : Property) : Text := d.logical p.key

/-- `offset` lies in the profile of a property, the dot included. -/
def isInProfile (d : Document) (p : Property) (offset : Nat) : Bool :=
  (profileLength? (d.raw p.key)).any fun n => offset ≤ p.key.start + n

/-! ## Values -/

/-- The logical value of a property. -/
def value? (d : Document) (p : Property) : Option Text :=
  p.value?.map fun v => d.logical v.span

/-- The logical value of a property, unless it is blank. -/
def setValue? (d : Document) (p : Property) : Option Text :=
  (d.value? p).filter fun v => !v.allBlank

/-- The full names of the properties that have a value, each once. -/
def keys (d : Document) : List Text :=
  ((d.properties.filter fun p => (d.setValue? p).isSome).map d.fullName).eraseDups

/-- Some property of this full name has a value. -/
def hasKey (d : Document) (key : Text) : Bool := d.keys.contains key

/-- The value of the first property of this full name that has one. -/
def lookup? (d : Document) (key : Text) : Option Text :=
  (d.properties.filter fun p => d.fullName p == key).findSome? d.setValue?

/-! ## Expressions -/

/-- The text between the `${` and the `}` of an expression, or up to its end if the brace
is missing. An expression that is a `$` alone has none. -/
def inner? (expression : Text) : Option Text :=
  match expression with
  | '$' :: '{' :: rest =>
    some (if rest.getLast? = some '}' then rest.dropLast else rest)
  | _ => none

/-- The expression reads `${...}` with its closing brace. -/
def isClosed (d : Document) (f : Fragment) : Bool :=
  match d.logical f.span with
  | '$' :: '{' :: rest => rest.getLast? = some '}'
  | _ => false

/-- The name that an expression refers to : what is inside it, up to the first colon. -/
def reference? (d : Document) (f : Fragment) : Option Text :=
  (inner? (d.logical f.span)).map fun t => t.takeWhile (· != ':')

/-- The value of an expression whose name is not set : what is behind the first colon. -/
def fallback? (d : Document) (f : Fragment) : Option Text :=
  (inner? (d.logical f.span)).bind fun t => (t.dropWhile (· != ':')).tail?

end Document

end DotProperties
