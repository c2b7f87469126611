import DotProperties.Proofs.Document.Diagnosis

/-!
# Rules on their own

A rule looks at the document, the catalog and its own settings, and at nothing that another rule
found (`Document.ruleDiagnostics_congr`). So a validation that runs to its end gives what each rule
gives when all the others are off, one rule after the other, and the severity of a rule is a label
on its diagnostics : with another severity they are the same diagnostics, relabelled
(`Document.validates_parts`).

`Document.Validates` is about a run against any checker that does not end it. What such a run gives
depends on the settings alone (`Document.validates_iff`).
-/

namespace DotProperties

/-! ## Settings of one rule -/

namespace Settings

variable (s : Settings) (r r' : Rule)

/-- The settings with another severity for one rule. -/
def regrade (s : Settings) (r : Rule) (severity : Severity) : Settings :=
  s.setRule r { s.rule r with severity := severity }

theorem rule_setRule (rs : RuleSettings) :
    (s.setRule r rs).rule r' = if r' = r then rs else s.rule r' := by
  cases r <;> cases r' <;> rfl

theorem enabled_setRule (rs : RuleSettings) : (s.setRule r rs).enabled = s.enabled := by
  cases r <;> rfl

theorem rule_regrade (severity : Severity) : (s.regrade r severity).rule r' =
    if r' = r then { s.rule r' with severity := severity } else s.rule r' := by
  rw [regrade, rule_setRule]
  split_ifs with h
  · rw [h]
  · rfl

theorem rule_disable :
    (s.disable r).rule r' = if r' = r then { s.rule r' with severity := .off } else s.rule r' :=
  s.rule_regrade r r' .off

theorem rule_foldl_disable (rs : List Rule) : (rs.foldl disable s).rule r' =
    if r' ∈ rs then { s.rule r' with severity := .off } else s.rule r' := by
  induction rs generalizing s with
  | nil => rfl
  | cons r rs ih =>
    rw [List.foldl_cons, ih, rule_disable]
    by_cases hr : r' = r <;> by_cases hrs : r' ∈ rs <;> simp [hr, hrs]

theorem enabled_foldl_disable (rs : List Rule) : (rs.foldl disable s).enabled = s.enabled := by
  induction rs generalizing s with
  | nil => rfl
  | cons r rs ih => rw [List.foldl_cons, ih, disable, enabled_setRule]

theorem rule_only : (s.only r).rule r' =
    if r' = r then s.rule r' else { s.rule r' with severity := .off } := by
  have hmem : r' ∈ Rule.all.filter (· != r) ↔ ¬r' = r := by
    cases r <;> cases r' <;> decide
  rw [only, rule_foldl_disable]
  simp only [hmem, ite_not]

theorem enabled_only : (s.only r).enabled = s.enabled := s.enabled_foldl_disable _

end Settings

/-- The diagnostic with another severity, if it is one of the rule. -/
def Diagnostic.regrade (r : Rule) (severity : Severity) (g : Diagnostic) : Diagnostic :=
  if g.rule = r then { g with severity := severity } else g

/-! ## Diagnostics of one rule -/

namespace Document

variable {d : Document} {c : Catalog} {s s' : Settings} {r r' : Rule} {gs : List Diagnostic}

/-- A rule reads its own settings only. -/
theorem ruleDiagnostics_congr (h : s.rule r = s'.rule r) :
    d.ruleDiagnostics c s r = d.ruleDiagnostics c s' r := by
  rw [ruleDiagnostics, ruleDiagnostics, h]

theorem ruleDiagnostics_of_off (h : (s.rule r).severity = .off) : d.ruleDiagnostics c s r = [] := by
  rw [ruleDiagnostics, RuleSettings.isEnabled, h]
  rfl

theorem ruleDiagnostics_of_ne_off (h : (s.rule r).severity ≠ .off) :
    d.ruleDiagnostics c s r =
      (d.findings c (s.rule r).exclusions r).filterMap (d.place? r (s.rule r).severity) := by
  have henabled : (s.rule r).isEnabled = true := bne_iff_ne.mpr h
  rw [ruleDiagnostics, if_pos henabled]

theorem diagnostics_eq_flatMap (h : s.enabled = true) :
    d.diagnostics c s = Rule.all.flatMap (d.ruleDiagnostics c s) := by
  rw [diagnostics, validation, if_pos h, Step.results_flatMap]
  simp only [Step.results_poll_cons, Step.results_map_yield]

theorem diagnostics_of_disabled (h : ¬s.enabled = true) : d.diagnostics c s = [] := by
  rw [diagnostics, validation, if_neg h]
  rfl

/-- A rule whose fellows are all off gives what it gives among them. -/
theorem diagnostics_only (h : s.enabled = true) (r : Rule) :
    d.diagnostics c (s.only r) = d.ruleDiagnostics c s r := by
  have hrule (r' : Rule) : d.ruleDiagnostics c (s.only r) r' =
      if r' = r then d.ruleDiagnostics c s r else [] := by
    have honly := s.rule_only r r'
    split_ifs at honly ⊢ with hr
    · subst hr
      exact ruleDiagnostics_congr honly
    · exact ruleDiagnostics_of_off (by rw [honly])
  rw [diagnostics_eq_flatMap ((s.enabled_only r).trans h), List.flatMap_congr fun r' _ => hrule r']
  cases r <;> simp [Rule.all]

/-- A diagnostic has the rule that gave it and the severity of that rule. -/
theorem of_mem_ruleDiagnostics {g : Diagnostic} (h : g ∈ d.ruleDiagnostics c s r) :
    g.rule = r ∧ g.severity = (s.rule r).severity := by
  rw [ruleDiagnostics] at h
  split_ifs at h
  · obtain ⟨f, -, hplace⟩ := List.mem_filterMap.mp h
    rw [place?] at hplace
    split at hplace
    · obtain rfl := Option.some.inj hplace
      exact ⟨rfl, rfl⟩
    · cases hplace
  · cases h

theorem place?_regrade (f : Finding) (severity severity' : Severity) :
    d.place? r severity' f = (d.place? r severity f).map (Diagnostic.regrade r severity') := by
  rw [place?, place?]
  cases d.buffer.rangeOf f.span with
  | ok range => simp [Diagnostic.regrade]
  | error => rfl

/-- With another severity for one rule, its diagnostics are relabelled and the others stay. -/
theorem ruleDiagnostics_regrade {severity : Severity} (h : (s.rule r).severity ≠ .off)
    (h' : severity ≠ .off) (r' : Rule) : d.ruleDiagnostics c (s.regrade r severity) r' =
      (d.ruleDiagnostics c s r').map (Diagnostic.regrade r severity) := by
  have hrule := s.rule_regrade r r' severity
  split_ifs at hrule with hr
  · subst hr
    rw [ruleDiagnostics_of_ne_off h, ruleDiagnostics_of_ne_off (by rwa [hrule]), hrule,
      List.map_filterMap]
    exact List.filterMap_congr fun f _ => place?_regrade f _ _
  · rw [ruleDiagnostics_congr hrule]
    refine (List.map_id _).symm.trans (List.map_congr_left fun g hg => ?_)
    rw [Diagnostic.regrade, (of_mem_ruleDiagnostics hg).1, if_neg hr]
    rfl

theorem diagnostics_regrade {severity : Severity} (henabled : s.enabled = true)
    (h : (s.rule r).severity ≠ .off) (h' : severity ≠ .off) :
    d.diagnostics c (s.regrade r severity) =
      (d.diagnostics c s).map (Diagnostic.regrade r severity) := by
  have henabled' : (s.regrade r severity).enabled = true :=
    (s.enabled_setRule r _).trans henabled
  rw [diagnostics_eq_flatMap henabled, diagnostics_eq_flatMap henabled', List.map_flatMap]
  exact List.flatMap_congr fun r' _ => ruleDiagnostics_regrade h h' r'

/-! ## Validation as a whole -/

/-- A validation against some checker runs to its end and gives `gs`. -/
def Validates (d : Document) (c : Catalog) (s : Settings) (gs : List Diagnostic) : Prop :=
  ∃ (σ : Type) (check : Checker σ) (state : σ),
    (Step.run check state (d.validation c s)).cancelled = false ∧
      (Step.run check state (d.validation c s)).results = gs

theorem validates_iff : d.Validates c s gs ↔ gs = d.diagnostics c s := by
  constructor
  · rintro ⟨σ, check, state, hend, rfl⟩
    exact Step.run_results hend
  · rintro rfl
    have hnever : ∀ state : Unit, ((fun _ => (false, ())) state : Bool × Unit).1 = false :=
      fun _ => rfl
    have hend := Step.run_of_never hnever () (d.validation c s)
    exact ⟨Unit, _, (), hend, Step.run_results hend⟩

/-- A validation that runs to its end gives what each rule gives when all the others are off, in
the order of the rules. Every diagnostic has the rule that gave it, and the severity that the
settings give this rule. Another severity for a rule, as long as it is not off, relabels the
diagnostics of this rule and changes nothing else. -/
theorem validates_parts (d : Document) (c : Catalog) {s : Settings} (henabled : s.enabled = true) :
    ∃ parts : Rule → List Diagnostic,
      (∀ r gs, d.Validates c (s.only r) gs ↔ gs = parts r) ∧
      (∀ gs, d.Validates c s gs ↔ gs = parts .form ++ parts .unknown ++ parts .duplicate ++
        parts .value ++ parts .required ++ parts .expression) ∧
      (∀ r, ∀ g ∈ parts r, g.rule = r ∧ g.severity = (s.rule r).severity) ∧
      ∀ r severity, (s.rule r).severity ≠ .off → severity ≠ .off → ∀ gs gs', d.Validates c s gs →
        (d.Validates c (s.regrade r severity) gs' ↔
          gs' = gs.map fun g => if g.rule = r then { g with severity := severity } else g) := by
  refine ⟨d.ruleDiagnostics c s, fun r gs => ?_, fun gs => ?_, fun r g hg => ?_, ?_⟩
  · rw [validates_iff, diagnostics_only henabled]
  · rw [validates_iff, diagnostics_eq_flatMap henabled]
    simp [Rule.all]
  · exact of_mem_ruleDiagnostics hg
  · intro r severity hr hseverity gs gs' hgs
    rw [validates_iff.mp hgs, validates_iff, diagnostics_regrade henabled hr hseverity]
    rfl

/-- A key without a delimiter that is set again to an expression without its brace, and a required
property that is missing. The rule on duplicates alone gives two of the seven diagnostics. -/
theorem validates_parts_duplicate :
    ∃ (d : Document) (c : Catalog) (gs gs' : List Diagnostic),
      d = ofBuffer ⟨"u", ['a', '\n', 'a', '=', '$', '{', 'b'], 1⟩ ∧
      d.Validates c {} gs ∧ gs.map Diagnostic.rule =
        [.form, .unknown, .unknown, .duplicate, .duplicate, .required, .expression] ∧
      d.Validates c (({} : Settings).only .duplicate) gs' ∧ gs'.length = 2 ∧ gs' ⊆ gs ∧
      ∀ g ∈ gs', g.severity = .warning := by
  let d : Document := ofBuffer ⟨"u", ['a', '\n', 'a', '=', '$', '{', 'b'], 1⟩
  let c : Catalog := ⟨[{ name := ['r'], required := true }], []⟩
  obtain ⟨parts, honly, hall, hmem, -⟩ := validates_parts d c (s := {}) rfl
  have hparts (r : Rule) : d.diagnostics c (({} : Settings).only r) = parts r :=
    (honly r _).mp (validates_iff.mpr rfl)
  refine ⟨d, c, d.diagnostics c {}, parts .duplicate, rfl, validates_iff.mpr rfl, by decide,
    (honly _ _).mpr rfl, ?_, ?_, fun g hg => (hmem _ g hg).2⟩
  · rw [← hparts]
    decide
  · intro g hg
    rw [(hall _).mp (validates_iff.mpr rfl)]
    simp [hg]

end Document

end DotProperties
