import DotProperties.Event.Basic

/-!
# The tree of a document

A document is a row of comments and properties. A property has a key, and possibly a
delimiter and a value behind it; a value is a row of literals and expressions. The tree
holds spans only.

`Tree.ofEvents` reads it off a stream of events. The constructs that hold no other one
(keys, literals, expressions and comments) are never open two at a time, so one register
holds the start of whichever is open, and one each the starts of the property and the
value around it.
-/

namespace DotProperties

/-- The two kinds of fragments of a value. -/
inductive FragmentKind where
  /-- Stands for itself. -/
  | literal
  /-- Refers to another property. -/
  | expression
  deriving DecidableEq

/-- A fragment of a value. -/
structure Fragment where
  /-- What it is. -/
  kind : FragmentKind
  /-- Where it stands. -/
  span : Span
  deriving DecidableEq

/-- The fragment is an expression. -/
def Fragment.isExpression (f : Fragment) : Bool := f.kind == .expression

/-- The value of a property. -/
structure Value where
  /-- Where it stands. -/
  span : Span
  /-- Its fragments, in order. -/
  fragments : List Fragment
  deriving DecidableEq

/-- The expressions of a value, in order. -/
def Value.expressions (v : Value) : List Fragment := v.fragments.filter Fragment.isExpression

/-- The delimiter of a property and the value behind it. -/
structure Assignment where
  /-- Where the delimiter stands. -/
  offset : Nat
  /-- The value. There is none if the text ends behind the delimiter. -/
  value : Option Value
  deriving DecidableEq

/-- The span of the delimiter. -/
def Assignment.span (a : Assignment) : Span := .single a.offset

/-- A property. -/
structure Property where
  /-- Where it stands. -/
  span : Span
  /-- Where its key stands. -/
  key : Span
  /-- The delimiter and the value, if there is a delimiter. -/
  assignment : Option Assignment
  deriving DecidableEq

namespace Property

/-- The value of a property, if it has one. -/
def value? (p : Property) : Option Value := p.assignment.bind Assignment.value

/-- The value holds an expression. -/
def hasExpression (p : Property) : Bool :=
  p.value?.any fun v => v.fragments.any Fragment.isExpression

end Property

/-- A top-level part of a document. -/
inductive Item where
  /-- A comment line. -/
  | comment (span : Span)
  /-- A property. -/
  | property (property : Property)
  deriving DecidableEq

namespace Item

/-- Where the part stands. -/
def span : Item → Span
  | comment s => s
  | property p => p.span

/-- The property, if the part is one. -/
def property? : Item → Option Property
  | comment _ => none
  | property p => some p

end Item

/-- The structure of a whole document. -/
structure Tree where
  /-- The whole text. -/
  span : Span
  /-- Its parts, in order. -/
  items : List Item
  deriving DecidableEq

/-- The properties of a document, in order. -/
def Tree.properties (t : Tree) : List Property := t.items.filterMap Item.property?

/-! ## From events -/

/-- A tree under construction. -/
structure Draft where
  /-- The parts finished so far, latest first. -/
  items : List Item := []
  /-- Start of the key, literal, expression or comment that is open. -/
  leaf : Nat := 0
  /-- Start of the property. -/
  property : Nat := 0
  /-- Key of the property. -/
  key : Span := ⟨0, 0⟩
  /-- Delimiter of the property. -/
  assign : Option Nat := none
  /-- Start of the value. -/
  valueStart : Nat := 0
  /-- Fragments of the value, latest first. -/
  fragments : List Fragment := []
  /-- The value, once it has stopped. -/
  value : Option Value := none
  /-- Where the document stops. -/
  stop : Nat := 0

namespace Draft

/-- The property that stops before `offset`. -/
def finishProperty (d : Draft) (offset : Nat) : Property :=
  ⟨⟨d.property, offset⟩, d.key, d.assign.map fun a => ⟨a, d.value⟩⟩

/-- Take in one event. -/
def add (d : Draft) : Event → Draft
  | .start .document _ => d
  | .start .property o => { d with property := o, assign := none, value := none }
  | .start .value o => { d with valueStart := o, fragments := [] }
  | .start .key o | .start .literal o | .start .expression o | .start .comment o =>
    { d with leaf := o }
  | .stop .document o => { d with stop := o }
  | .stop .property o => { d with items := .property (d.finishProperty o) :: d.items }
  | .stop .key o => { d with key := ⟨d.leaf, o⟩ }
  | .stop .value o => { d with value := some ⟨⟨d.valueStart, o⟩, d.fragments.reverse⟩ }
  | .stop .literal o => { d with fragments := ⟨.literal, d.leaf, o⟩ :: d.fragments }
  | .stop .expression o => { d with fragments := ⟨.expression, d.leaf, o⟩ :: d.fragments }
  | .stop .comment o => { d with items := .comment ⟨d.leaf, o⟩ :: d.items }
  | .assign o => { d with assign := some o }
  | .blankLine _ | .invalid _ => d

/-- The tree of the parts finished so far. -/
def tree (d : Draft) : Tree := ⟨⟨0, d.stop⟩, d.items.reverse⟩

end Draft

/-- The tree that a stream of events describes. -/
def Tree.ofEvents (events : List Event) : Tree := (events.foldl Draft.add {}).tree

end DotProperties
