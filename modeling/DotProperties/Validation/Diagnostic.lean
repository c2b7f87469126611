import DotProperties.Validation.Settings

/-!
# Diagnostics

What a rule has to say about a document. A `Finding` names the stretch it is about by
offset; a `Diagnostic` adds the range of that stretch and the severity of the rule.
-/

namespace DotProperties

/-- What a rule has found. -/
structure Finding where
  /-- Where it is. -/
  span : Span
  /-- What is found. -/
  message : String
  /-- The name of the property it is about. -/
  propertyName : Option Text
  deriving DecidableEq

/-- A finding in its place. -/
structure Diagnostic where
  /-- Where it is, by position. -/
  range : Range
  /-- Where it is, by offset. -/
  span : Span
  /-- How severe it is. -/
  severity : Severity
  /-- The rule that found it. -/
  rule : Rule
  /-- What is found. -/
  message : String
  /-- The name of the property it is about. -/
  propertyName : Option Text
  deriving DecidableEq

/-- A name in a message. -/
def quoteName (lead : String) (name : Text) : String := lead ++ " '" ++ String.ofList name ++ "'"

end DotProperties
