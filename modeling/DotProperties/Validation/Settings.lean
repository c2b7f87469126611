import DotProperties.Glob.Parse

/-!
# Settings of validation

The settings give each `Rule` a severity, where `off` disables it, and globs of the names
that it leaves alone. Globs that cannot be read are passed over. If braces are nested too
deep in one of them the rule leaves nothing alone (`RuleSettings.exclusions`).
-/

namespace DotProperties

/-- How severe a finding is. -/
inductive Severity where
  /-- Not reported. -/
  | off
  /-- A hint. -/
  | hint
  /-- Information. -/
  | information
  /-- A warning. -/
  | warning
  /-- An error. -/
  | error
  deriving DecidableEq

/-- The name of a severity. -/
def Severity.name : Severity → String
  | off => "none"
  | hint => "hint"
  | information => "information"
  | warning => "warning"
  | error => "error"

/-- All severities. -/
def Severity.all : List Severity := [off, hint, information, warning, error]

/-- A rule of validation. -/
inductive Rule where
  /-- A key has a delimiter, and no character is invalid. -/
  | form
  /-- A key is known. -/
  | unknown
  /-- A key is set once. -/
  | duplicate
  /-- A value fits its property. -/
  | value
  /-- A required property is set. -/
  | required
  /-- An expression is closed and refers to a known name. -/
  | expression
  deriving DecidableEq

/-- The name of a rule. -/
def Rule.name : Rule → String
  | form => "syntax"
  | unknown => "unknown"
  | duplicate => "duplicate"
  | value => "value"
  | required => "required"
  | expression => "expression"

/-- All rules, in the order in which they are checked. -/
def Rule.all : List Rule := [form, unknown, duplicate, value, required, expression]

/-- The settings of a rule. -/
structure RuleSettings where
  /-- How severe its findings are. -/
  severity : Severity
  /-- Globs of the names that it leaves alone. -/
  excluded : List Text := []
  deriving DecidableEq

/-- From this depth of nested braces on, a list of globs is not used. -/
def deepestBraces : Nat := 250

namespace RuleSettings

/-- The rule is checked. -/
def isEnabled (s : RuleSettings) : Bool := s.severity != .off

/-- The globs of the names that the rule leaves alone. -/
def exclusions (s : RuleSettings) : List NameGlob :=
  let globs := s.excluded.filterMap NameGlob.parse?
  if globs.any fun g => deepestBraces ≤ g.depth then [] else globs

end RuleSettings

/-- The settings of validation. -/
structure Settings where
  /-- Anything is checked at all. -/
  enabled : Bool := true
  /-- Settings of the rule `form`. -/
  form : RuleSettings := { severity := .error }
  /-- Settings of the rule `unknown`. -/
  unknown : RuleSettings := { severity := .warning }
  /-- Settings of the rule `duplicate`. -/
  duplicate : RuleSettings := { severity := .warning }
  /-- Settings of the rule `value`. -/
  value : RuleSettings := { severity := .error }
  /-- Settings of the rule `required`. -/
  required : RuleSettings := { severity := .warning }
  /-- Settings of the rule `expression`. -/
  expression : RuleSettings := { severity := .error }
  deriving DecidableEq

namespace Settings

/-- The settings of a rule. -/
def rule (s : Settings) : Rule → RuleSettings
  | .form => s.form
  | .unknown => s.unknown
  | .duplicate => s.duplicate
  | .value => s.value
  | .required => s.required
  | .expression => s.expression

/-- The settings with those of one rule replaced. -/
def setRule (s : Settings) (r : Rule) (rs : RuleSettings) : Settings :=
  match r with
  | .form => { s with form := rs }
  | .unknown => { s with unknown := rs }
  | .duplicate => { s with duplicate := rs }
  | .value => { s with value := rs }
  | .required => { s with required := rs }
  | .expression => { s with expression := rs }

/-- The settings with one rule off. -/
def disable (s : Settings) (r : Rule) : Settings :=
  s.setRule r { s.rule r with severity := .off }

/-- The settings with every rule but one off. -/
def only (s : Settings) (r : Rule) : Settings :=
  (Rule.all.filter (· != r)).foldl disable s

/-- The settings with one more glob of names that a rule leaves alone. -/
def exclude (s : Settings) (r : Rule) (pattern : Text) : Settings :=
  s.setRule r { s.rule r with excluded := (s.rule r).excluded ++ [pattern] }

end Settings

end DotProperties
