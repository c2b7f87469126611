import DotProperties.Catalog.Basic
import DotProperties.Document.Basic
import DotProperties.Text.Numeral
import DotProperties.Validation.Diagnostic

/-!
# Validation

A document is checked against a catalog, one rule after the other, each one over the
whole document. A rule gives `Finding`s, in document order, and knows nothing of the
others. `Document.validation` puts them in order, with a poll before each rule, and gives
each finding the severity of its rule and the range of its span.
-/

namespace DotProperties

namespace Document

/-- A property is left alone if a glob describes its name, with or without the profile. -/
def isExcluded (d : Document) (globs : List NameGlob) (p : Property) : Bool :=
  NameGlob.anyMatch globs (d.name p) || NameGlob.anyMatch globs (d.fullName p)

/-! ## The rules -/

/-- A key without a delimiter. -/
def missingDelimiter? (d : Document) (globs : List NameGlob) (p : Property) : Option Finding :=
  if p.assignment.isSome || p.key.isEmpty then none
  else
    let name := d.fullName p
    if NameGlob.anyMatch globs name then none
    else some ⟨p.key, quoteName "Missing equals sign after" name, some name⟩

/-- An invalid character. -/
def invalidCharacter (e : InvalidCharacter) : Finding := ⟨.single e.offset, e.cause, none⟩

/-- Keys without a delimiter, and then invalid characters. -/
def formFindings (d : Document) (globs : List NameGlob) : List Finding :=
  d.properties.filterMap (d.missingDelimiter? globs) ++ d.errors.map invalidCharacter

/-- A key that is not known. -/
def unknownKey? (d : Document) (c : Catalog) (globs : List NameGlob) (p : Property) :
    Option Finding :=
  let name := d.name p
  if name.isEmpty || (c.find? name).isSome || d.isExcluded globs p then none
  else some ⟨p.key, quoteName "Unknown property" name, some name⟩

/-- Keys that are not known. -/
def unknownFindings (d : Document) (c : Catalog) (globs : List NameGlob) : List Finding :=
  d.properties.filterMap (d.unknownKey? c globs)

/-- The full names that more than one property has, each once. -/
def repeatedNames (d : Document) : List Text :=
  let names := d.properties.map d.fullName
  names.eraseDups.filter fun name => 2 ≤ names.count name

/-- A key that is set more than once, `names` being the names that are repeated. -/
def duplicateKey? (d : Document) (globs : List NameGlob) (names : List Text) (p : Property) :
    Option Finding :=
  let name := d.fullName p
  if name.isEmpty || !names.contains name || d.isExcluded globs p then none
  else some ⟨p.key, quoteName "Duplicate property" name, some name⟩

/-- Keys that are set more than once. -/
def duplicateFindings (d : Document) (globs : List NameGlob) : List Finding :=
  d.properties.filterMap (d.duplicateKey? globs d.repeatedNames)

end Document

/-- `t` fits a kind of value. -/
def ValueKind.fits : ValueKind → Text → Bool
  | boolean, t => t.isBoolean
  | integer, t => t.isInteger
  | float, t => t.isReal
  | other, _ => true

/-- What is wrong with a value of a known property, if anything is. -/
def Catalog.valueError? (c : Catalog) (p : KnownProperty) (t : Text) : Option String :=
  let type := String.ofList (p.type.getD "String".toList)
  if (c.hintFor? p).isSome then
    if c.admits p t then none
    else some (quoteName "Invalid enum value:" t ++ s!" is invalid for type {type}")
  else if p.valueKind.fits t then none
  else some s!"Type mismatch: {type} expected"

namespace Document

/-- A value that does not fit its property. A value with an expression is not judged. -/
def misfit? (d : Document) (c : Catalog) (globs : List NameGlob) (p : Property) :
    Option Finding := do
  let v ← p.value?
  let t := (d.logical v.span).trim
  if t.isEmpty || p.hasExpression then none
  else
    let name := d.name p
    let known ← c.find? name
    if d.isExcluded globs p then none
    else
      let message ← c.valueError? known t
      return ⟨v.span, message, some name⟩

/-- Values that do not fit their property. -/
def valueFindings (d : Document) (c : Catalog) (globs : List NameGlob) : List Finding :=
  d.properties.filterMap (d.misfit? c globs)

/-- The required properties that no property of the document sets. -/
def missing (d : Document) (c : Catalog) (globs : List NameGlob) : List Text :=
  let keys := d.keys
  (c.properties.filter fun p =>
    p.required && !p.isPattern && !NameGlob.anyMatch globs p.name
      && !keys.contains p.name).map KnownProperty.name

/-- Required properties that are not set. -/
def requiredFindings (d : Document) (c : Catalog) (globs : List NameGlob) : List Finding :=
  (d.missing c globs).map fun name =>
    ⟨⟨0, 0⟩, quoteName "Missing required property" name, some name⟩

end Document

/-- A name of capitals, digits and underscores, which is looked up in the environment. -/
def Text.isEnvironmentName (t : Text) : Bool :=
  t.all fun c => c.isUpper || c.isDigit || c == '_'

namespace Document

/-- What is wrong with an expression, `names` being the names of all properties. -/
def expressionFinding? (d : Document) (c : Catalog) (names : List Text) (f : Fragment) :
    Option Finding := do
  let reference ← d.reference? f
  if !d.isClosed f then return ⟨f.span, "Missing '\x7d'", none⟩
  else if reference.isEmpty || (d.fallback? f).isSome || reference.isEnvironmentName
      || names.contains reference || (c.find? reference).isSome then none
  else return ⟨f.span, quoteName "Unknown referenced property" reference, some reference⟩

/-- Expressions that are not closed or refer to a name that is not known. -/
def expressionFindings (d : Document) (c : Catalog) (globs : List NameGlob) : List Finding :=
  let names := (d.properties.map d.name).eraseDups
  d.properties.flatMap fun p =>
    match p.value? with
    | some v =>
      if d.isExcluded globs p then []
      else v.expressions.filterMap (d.expressionFinding? c names)
    | none => []

/-- What a rule finds. -/
def findings (d : Document) (c : Catalog) (globs : List NameGlob) : Rule → List Finding
  | .form => d.formFindings globs
  | .unknown => d.unknownFindings c globs
  | .duplicate => d.duplicateFindings globs
  | .value => d.valueFindings c globs
  | .required => d.requiredFindings c globs
  | .expression => d.expressionFindings c globs

/-! ## All rules -/

/-- The diagnostic of a finding. There is none if its span leaves the document. -/
def place? (d : Document) (r : Rule) (severity : Severity) (f : Finding) : Option Diagnostic :=
  match d.buffer.rangeOf f.span with
  | .ok range => some ⟨range, f.span, severity, r, f.message, f.propertyName⟩
  | .error _ => none

/-- The diagnostics of one rule. -/
def ruleDiagnostics (d : Document) (c : Catalog) (s : Settings) (r : Rule) :
    List Diagnostic :=
  let rs := s.rule r
  if rs.isEnabled then (d.findings c rs.exclusions r).filterMap (d.place? r rs.severity) else []

/-- The validation of a document. -/
def validation (d : Document) (c : Catalog) (s : Settings) : List (Step Diagnostic) :=
  if s.enabled then
    Rule.all.flatMap fun r => .poll :: (d.ruleDiagnostics c s r).map .yield
  else []

/-- The diagnostics of a document. -/
def diagnostics (d : Document) (c : Catalog) (s : Settings) : List Diagnostic :=
  Step.results (d.validation c s)

end Document

end DotProperties
