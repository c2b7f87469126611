import DotProperties.Document.Node
import DotProperties.Text.EditDistance
import DotProperties.Validation.Basic

/-!
# Fixes

What can be done about diagnostics. A key that is not known can be replaced by a known
one of similar spelling, or be left alone by the rule from now on, by its own name or
with everything under one of its ancestors. A value that does not fit can be replaced by
one that does. All required properties that are missing are added at once.

An `Action` only describes what to do. `Document.fixes` gives the actions for a list of
diagnostics, with a poll before each diagnostic and before each action on it.
-/

namespace DotProperties

/-- The kinds of actions. -/
inductive ActionKind where
  /-- Replace a key by a similar one. -/
  | similarKey
  /-- Replace a value by a similar one. -/
  | similarValue
  /-- Replace a value by any that fits. -/
  | anyValue
  /-- Add the required properties. -/
  | addRequired
  /-- Leave names alone. -/
  | ignoreUnknown
  deriving DecidableEq

/-- A replacement of a stretch of a document. -/
structure Edit where
  /-- What is replaced, by position. -/
  range : Range
  /-- What is replaced, by offset. -/
  span : Span
  /-- What it is replaced by. -/
  newText : Text
  deriving DecidableEq

/-- What an action does. -/
inductive Remedy where
  /-- Edit the document. -/
  | edits (edits : List Edit)
  /-- Add a glob of names that the rule on unknown keys leaves alone. -/
  | excludeUnknown (pattern : Text)
  deriving DecidableEq

/-- Something to do about diagnostics. -/
structure Action where
  /-- What it is called. -/
  title : String
  /-- What kind of action it is. -/
  kind : ActionKind
  /-- The diagnostics it settles. -/
  diagnostics : List Diagnostic
  /-- What it does. -/
  remedy : Remedy
  deriving DecidableEq

/-- The settings of fixes. -/
structure FixSettings where
  /-- Put spaces around the delimiter of a property that is added. -/
  spaced : Bool := true
  /-- Ancestors that are never left alone as a whole. -/
  reservedRoots : List Text := ["quarkus".toList]
  deriving DecidableEq

/-! ## Single actions -/

/-- Leave alone what a glob describes. -/
def Action.exclude (g : Diagnostic) (pattern : Text) : Action :=
  ⟨quoteName "Exclude" pattern ++ " from unknown property validation?", .ignoreUnknown, [g],
    .excludeUnknown pattern⟩

namespace Document

/-- Replace a span. There is no such action if the span leaves the document. -/
def replacement? (d : Document) (g : Diagnostic) (title : String) (kind : ActionKind)
    (s : Span) (new : Text) : Option Action :=
  match d.buffer.rangeOf s with
  | .ok range => some ⟨title, kind, [g], .edits [⟨range, s, new⟩]⟩
  | .error _ => none

/-- The offset behind the last character that is not blank. -/
def contentEnd (d : Document) : Nat := d.buffer.text.trimEnd.length

/-- The lines that set each of `names` to nothing, with `delimiter` between them. -/
def insertedLines (names : List Text) (delimiter : Text) (spaced : Bool) : Text :=
  let assign := if spaced then " = ".toList else "=".toList
  (names.map (· ++ assign)).intersperse delimiter |>.flatten

/-- Add all the properties that `required` diagnostics name behind the content. -/
def addRequired? (d : Document) (s : FixSettings) (required : List Diagnostic) :
    Option Action :=
  let offset := d.contentEnd
  let delimiter := d.buffer.lineDelimiter 0
  let lines := insertedLines (required.filterMap Diagnostic.propertyName) delimiter s.spaced
  let new := if 0 < offset then delimiter ++ lines else lines
  match d.buffer.rangeOf ⟨offset, offset⟩ with
  | .ok range =>
    some ⟨"Add all missing required properties?", .addRequired, required,
      .edits [⟨range, ⟨offset, offset⟩, new⟩]⟩
  | .error _ => none

end Document

/-! ## Unknown keys -/

/-- The ancestors of a name that stand before a dot of it, nearest first. `done` holds
the characters before `t` in reverse. -/
def Text.ancestorsFrom (done : Text) (found : List Text) : Text → List Text
  | [] => found
  | c :: t =>
    ancestorsFrom (c :: done) (if c == '.' then done.reverse :: found else found) t

/-- The ancestors of a name, nearest first. -/
def Text.ancestors (t : Text) : List Text := ancestorsFrom [] [] t

namespace Document

/-- The key that replaces one with the profile of `p` by a known name. -/
def renamed (d : Document) (p : Property) (known : Text) : Text :=
  match d.profile? p with
  | some profile => '%' :: profile ++ '.' :: known
  | none => known

/-- The known names that are similar to a name. -/
def similarNames (c : Catalog) (name : Text) : List Text :=
  (c.properties.filter fun k => !k.isPattern && k.name.isSimilar name).map KnownProperty.name

/-- The actions on the key of `p`, which is not known under `name`. -/
def keyFixes (d : Document) (c : Catalog) (s : FixSettings) (g : Diagnostic) (p : Property)
    (name : Text) : List (Step Action) :=
  let suggestions := (similarNames c name).map fun known =>
    d.replacement? g (quoteName "Did you mean" known ++ " ?") .similarKey p.key
      (d.renamed p known)
  let ancestors := name.ancestors.filter fun a => !s.reservedRoots.contains a
  let exclusions := (name :: ancestors.map (· ++ ['.', '*'])).map fun pattern =>
    some (Action.exclude g pattern)
  (suggestions ++ exclusions).flatMap fun action? => .poll :: (action?.toList.map .yield)

/-- The property whose key is at `offset`. -/
def keyAt? (d : Document) (offset : Nat) : Option Property :=
  match d.tree.find offset with
  | (i :: _, .key _) => d.tree.items[i]?.bind Item.property?
  | _ => none

/-- The property whose value is at `offset`, and its value. -/
def valueAt? (d : Document) (offset : Nat) : Option (Property × Value) :=
  match d.tree.find offset with
  | (i :: _, .value _) | (i :: _, .fragment _) => do
    let p ← d.tree.items[i]?.bind Item.property?
    return (p, ← p.value?)
  | _ => none

/-- The actions on a key that is not known. -/
def unknownFixes (d : Document) (c : Catalog) (s : FixSettings) (g : Diagnostic) :
    List (Step Action) :=
  match d.keyAt? g.span.start with
  | some p =>
    match d.name? p with
    | some name => d.keyFixes c s g p name
    | none => []
  | none => []

/-! ## Values that do not fit -/

/-- The replacements of a value that does not fit a known property : the values that are
similar, in every spelling that is taken, or else all of them. -/
def valueFixes (d : Document) (c : Catalog) (g : Diagnostic) : List (Step Action) :=
  match d.valueAt? g.span.start with
  | none => []
  | some (p, v) =>
    match c.find? (d.name p) with
    | none => []
    | some known =>
      let current := (d.logical v.span).trim
      let choices := (c.choices? known).getD []
      let similar := (choices.flatMap (·.spellings known.converters)).filter
        fun t => t.isSimilarValue current
      let actions :=
        if similar.isEmpty then
          (choices.map (·.preferred known.converters)).map fun t =>
            d.replacement? g (quoteName "Replace with" t ++ "?") .anyValue g.span t
        else
          similar.map fun t =>
            d.replacement? g (quoteName "Did you mean" t ++ "?") .similarValue g.span t
      actions.flatMap fun action? => .poll :: (action?.toList.map .yield)

/-! ## All diagnostics -/

/-- The actions on one diagnostic. -/
def fixesFor (d : Document) (c : Catalog) (s : FixSettings) (g : Diagnostic) :
    List (Step Action) :=
  .poll :: match g.rule with
    | .unknown => d.unknownFixes c s g
    | .value => d.valueFixes c g
    | _ => []

/-- The actions on a list of diagnostics. -/
def fixes (d : Document) (c : Catalog) (s : FixSettings) (gs : List Diagnostic) :
    List (Step Action) :=
  let required := gs.filter fun g => g.rule == .required
  let bulk := if required.isEmpty then none else d.addRequired? s required
  .poll :: (bulk.toList.map .yield ++ gs.flatMap (d.fixesFor c s))

end Document

end DotProperties
