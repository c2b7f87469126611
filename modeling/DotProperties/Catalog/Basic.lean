import DotProperties.Catalog.Placeholder
import DotProperties.Text.Kebab

/-!
# Catalogs

A `Catalog` lists the properties that are known, and hints on the values they take. It is
made from lists that may hold unnamed and repeated entries : unnamed ones are dropped,
and of several entries with one name the first is kept (`firstByName`).

A property is found by its exact name, or else by the first placeholder pattern that
matches. Its hint is the one it refers to, or else the one named after the property, or
else after its type. A hint may stand for another one.
-/

namespace DotProperties

/-- How the value of a property is spelled, from a declared value. -/
inductive Converter where
  /-- In kebab case. -/
  | kebabCase
  /-- As it is declared. -/
  | verbatim
  deriving DecidableEq

/-- The spelling of a declared value. -/
def Converter.convert : Converter → Text → Text
  | kebabCase, t => t.kebab
  | verbatim, t => t

/-- What kind of value a type takes. -/
inductive ValueKind where
  /-- A truth value. -/
  | boolean
  /-- An integer. -/
  | integer
  /-- A number with a fraction. -/
  | float
  /-- Anything. -/
  | other
  deriving DecidableEq

/-- Names of the types whose values are truth values. -/
def booleanTypes : List String := ["boolean", "java.lang.Boolean"]

/-- Names of the types whose values are integers. -/
def integerTypes : List String :=
  ["int", "long", "short", "byte", "java.lang.Integer", "java.lang.Long", "java.lang.Short",
    "java.lang.Byte", "java.util.OptionalInt", "java.util.OptionalLong", "java.math.BigInteger"]

/-- Names of the types whose values are numbers with a fraction. -/
def floatTypes : List String :=
  ["float", "double", "java.lang.Float", "java.lang.Double", "java.util.OptionalDouble",
    "java.math.BigDecimal"]

/-- What stands in front of the type of an optional value; a `>` stands behind it. -/
def optionalOpening : Text := "java.util.Optional<".toList

/-- The type that an optional type wraps, or the type itself. -/
def unwrapOptional (type : Text) : Text :=
  if optionalOpening.isPrefixOf type && type.getLast? == some '>' then
    (type.drop optionalOpening.length).dropLast
  else type

/-- The kind of value that a type takes. -/
def ValueKind.ofType (type : Text) : ValueKind :=
  let name := unwrapOptional type
  let isOneOf (names : List String) := names.any fun n => n.toList == name
  if isOneOf booleanTypes then .boolean
  else if isOneOf integerTypes then .integer
  else if isOneOf floatTypes then .float
  else .other

/-- A known property, or a family of them if its name holds a placeholder. -/
structure KnownProperty where
  /-- Its name. -/
  name : Text
  /-- The name of its type. -/
  type : Option Text := none
  /-- A document has to set it. -/
  required : Bool := false
  /-- What it is for. -/
  description : Option Text := none
  /-- The value it has when it is not set. -/
  defaultValue : Option Text := none
  /-- The spellings of a declared value that it takes. Without any it takes the declared
  values as they are. -/
  converters : List Converter := []
  /-- The name of its hint. -/
  hintRef : Option Text := none
  deriving DecidableEq

namespace KnownProperty

/-- The name holds a placeholder. -/
def isPattern (p : KnownProperty) : Bool := p.name.hasPlaceholder

/-- The kind of value that the property takes. -/
def valueKind (p : KnownProperty) : ValueKind := p.type.elim .other .ofType

end KnownProperty

/-- A value that a property takes. -/
structure Choice where
  /-- The value as it is declared. -/
  value : Text
  /-- What it means. -/
  description : Option Text := none
  /-- The type that declares it. -/
  sourceType : Option Text := none
  deriving DecidableEq

namespace Choice

/-- The spellings of the value. -/
def spellings (c : Choice) (converters : List Converter) : List Text :=
  if converters.isEmpty then [c.value] else converters.map (·.convert c.value)

/-- `t` is a spelling of the value. -/
def accepts (c : Choice) (t : Text) (converters : List Converter) : Bool :=
  (c.spellings converters).contains t

/-- The spelling to suggest : the first one. -/
def preferred (c : Choice) (converters : List Converter) : Text :=
  (c.spellings converters).headD c.value

end Choice

/-- A named list of values. -/
structure Hint where
  /-- Its name. -/
  name : Text
  /-- The values. -/
  choices : List Choice := []
  /-- The name of the hint that it stands for. -/
  handleAs : Option Text := none
  deriving DecidableEq

/-- The first choice that has `t` as a spelling. -/
def Hint.find? (h : Hint) (t : Text) (converters : List Converter) : Option Choice :=
  h.choices.find? fun c => c.accepts t converters

/-- The known properties and the hints. -/
structure Catalog where
  /-- The properties, in order. -/
  properties : List KnownProperty
  /-- The hints. -/
  hints : List Hint
  deriving DecidableEq

/-- The entries with a name that is not empty and not among `seen`, the first of each
name. -/
def firstByName {α : Type} (name : α → Text) (seen : List Text) : List α → List α
  | [] => []
  | a :: entries =>
    if (name a).isEmpty || seen.contains (name a) then firstByName name seen entries
    else a :: firstByName name (name a :: seen) entries

namespace Catalog

/-- A catalog of the named entries, the first of each name. -/
def ofEntries (properties : List KnownProperty) (hints : List Hint) : Catalog :=
  ⟨firstByName KnownProperty.name [] properties, firstByName Hint.name [] hints⟩

/-- A catalog of nothing. -/
def empty : Catalog := ⟨[], []⟩

/-- No property is known. -/
def isEmpty (c : Catalog) : Bool := c.properties.isEmpty

/-- The property that a name stands for. -/
def find? (c : Catalog) (name : Text) : Option KnownProperty :=
  if name.isEmpty then none
  else
    c.properties.find? (fun p => p.name == name)
      <|> c.properties.find? (fun p => p.isPattern && p.name.matchesPattern name)

/-- The hint of a name. -/
def hint? (c : Catalog) (name : Text) : Option Hint := c.hints.find? fun h => h.name == name

/-- The hint on the values of a property. -/
def hintFor? (c : Catalog) (p : KnownProperty) : Option Hint :=
  match p.hintRef with
  | some name => c.hint? name
  | none => c.hint? p.name <|> p.type.bind c.hint?

/-- The hint that a hint stands for, if it stands for another one that exists. -/
def target? (c : Catalog) (h : Hint) : Option Hint := h.handleAs.bind c.hint?

/-- The values of a truth value. -/
def booleanChoices : List Choice := [{ value := "false".toList }, { value := "true".toList }]

/-- The values that a property takes, if they are listed : those of the hint that its
hint stands for, or else of its hint, or else the truth values if it takes these. -/
def choices? (c : Catalog) (p : KnownProperty) : Option (List Choice) :=
  match c.hintFor? p with
  | some h => some ((c.target? h).getD h).choices
  | none => if p.valueKind = .boolean then some booleanChoices else none

/-- `t` is a value of the hint of a property, or of the hint that one stands for. Without
a hint every text is. -/
def admits (c : Catalog) (p : KnownProperty) (t : Text) : Bool :=
  match c.hintFor? p with
  | none => true
  | some h =>
    (h.find? t p.converters).isSome
      || (c.target? h).any fun other => (other.find? t p.converters).isSome

end Catalog

end DotProperties
