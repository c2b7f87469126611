import DotProperties.Proofs.Document.Exclusion
import DotProperties.Proofs.Document.Rules

/-!
# Owners of diagnostics

A diagnostic at a key, a value or an expression is about the property that it is a part of
(`Diagnostic.IsAbout`). There is one such property (`Document.eq_of_mem_reported`), and none for an
invalid character. All rules go through the properties in order, and what a rule finds at a property
does not depend on its globs : they only decide which properties it passes over
(`Document.findings_eq`).

So one more glob takes away the diagnostics on the properties that the rule passes over because of
it, and changes nothing else. These should be the properties whose name the glob describes, with or
without the profile. The rule on the form of a document is the only one that looks at the name with
the profile alone. Therefore it reports a key of a profile that the other rules leave alone
(`Document.exists_not_excludesEvenly`), and `Document.excludesEvenly_iff` says that there is no
other exception among lists of globs that are used.
-/

namespace DotProperties

open Event

/-! ## Owners -/

/-- The spans of a property at which a rule reports it. -/
def Property.reported (p : Property) : Rule → List Span
  | .form | .unknown | .duplicate => [p.key]
  | .value => p.value?.toList.map Value.span
  | .expression => p.value?.toList.flatMap fun v => v.expressions.map Fragment.span
  | .required => []

/-- The diagnostic is about the property. One on an invalid character gives no name, and it is about
no property. -/
def Diagnostic.IsAbout (g : Diagnostic) (p : Property) : Prop :=
  g.span ∈ p.reported g.rule ∧ (g.rule = .form → g.propertyName ≠ none)

instance (g : Diagnostic) (p : Property) : Decidable (g.IsAbout p) :=
  inferInstanceAs (Decidable (_ ∧ _))

namespace Document

variable {b : Buffer} {p q : Property} {r : Rule} {span : Span}

theorem mem_reported_iff : span ∈ p.reported r ↔
    (r = .form ∨ r = .unknown ∨ r = .duplicate) ∧ span = p.key ∨
    r = .value ∧ (∃ v, p.value? = some v ∧ span = v.span) ∨
    r = .expression ∧ ∃ v, p.value? = some v ∧ ∃ f ∈ v.expressions, span = f.span := by
  cases r <;> simp [Property.reported, eq_comm]

/-- What is reported of a property lies in it. -/
theorem within_of_mem_reported (hp : p ∈ (ofBuffer b).properties) (h : span ∈ p.reported r) :
    p.span.start ≤ span.start ∧ span.start ≤ p.span.stop := by
  have hrow := Tree.row_property hp
  have hvalue {v : Value} (hv : p.value? = some v) :
      p.span.start ≤ v.span.start ∧ v.span.start ≤ v.span.stop ∧ v.span.stop ≤ p.span.stop := by
    obtain ⟨a, ha, hav⟩ := Option.bind_eq_some_iff.mp hv
    refine hrow.bounds (.value v) ?_
    simp [Node.children, Assignment.nodes, ha, hav]
  rcases mem_reported_iff.mp h with ⟨-, rfl⟩ | ⟨-, v, hv, rfl⟩ | ⟨-, v, hv, f, hf, rfl⟩
  · have hkey := hrow.bounds (.key p.key) List.mem_cons_self
    exact ⟨hkey.1, Nat.le_trans hkey.2.1 hkey.2.2⟩
  · have := hvalue hv
    omega
  · have hnode : .value v ∈ (ofBuffer b).tree.nodes := Tree.mem_nodes_iff.mpr (Or.inr (Or.inr
      ⟨p, Tree.mem_properties_iff.mp hp, Or.inr (Or.inr ⟨v, hv, Or.inl rfl⟩)⟩))
    have hfragment : v.span.start ≤ f.span.start ∧ f.span.start ≤ f.span.stop ∧
        f.span.stop ≤ v.span.stop :=
      (Tree.fits_ofText b.text _ hnode).children.bounds (.fragment f)
        (List.mem_map_of_mem (List.mem_of_mem_filter hf))
    have := hvalue hv
    omega

/-- No two properties are reported at one span. -/
theorem eq_of_mem_reported (hp : p ∈ (ofBuffer b).properties) (hq : q ∈ (ofBuffer b).properties)
    (h : span ∈ p.reported r) (h' : span ∈ q.reported r) : p = q := by
  obtain ⟨hstart, hstop⟩ := within_of_mem_reported hp h
  obtain ⟨hstart', hstop'⟩ := within_of_mem_reported hq h'
  obtain ⟨i, hi, hfind⟩ := Tree.find_property hp hstart hstop
  obtain ⟨j, hj, hfind'⟩ := Tree.find_property hq hstart' hstop'
  obtain rfl : i = j := by
    have hpath := congrArg Prod.fst (hfind.symm.trans hfind')
    exact (List.cons.inj hpath).1
  exact Item.property.inj (Option.some.inj (hi.symm.trans hj))

end Document

/-! ## Findings at a property -/

namespace Document

variable {d : Document} {c : Catalog} {globs : List NameGlob} {p : Property} {r : Rule}

/-- A rule passes over a property because of its globs. -/
def passesOver (d : Document) (globs : List NameGlob) (r : Rule) (p : Property) : Bool :=
  match r with
  | .form => NameGlob.anyMatch globs (d.fullName p)
  | _ => d.isExcluded globs p

/-- What a rule finds at a property that it does not pass over. -/
def findingsAt (d : Document) (c : Catalog) (r : Rule) (p : Property) : List Finding :=
  match r with
  | .form => (d.missingDelimiter? [] p).toList
  | .unknown => (d.unknownKey? c [] p).toList
  | .duplicate => (d.duplicateKey? [] d.repeatedNames p).toList
  | .value => (d.misfit? c [] p).toList
  | .expression => p.value?.toList.flatMap fun v =>
      v.expressions.filterMap (d.expressionFinding? c (d.properties.map d.name).eraseDups)
  | .required => []

/-- What a rule finds apart from properties. -/
def strayFindings (d : Document) (r : Rule) : List Finding :=
  match r with
  | .form => d.errors.map invalidCharacter
  | _ => []

theorem anyMatch_nil (name : Text) : NameGlob.anyMatch [] name = false := rfl

theorem isExcluded_nil : d.isExcluded [] p = false := rfl

/-- A row of checks that each pass over a property or do not look at the globs. -/
theorem filterMap_eq_flatMap {f : List NameGlob → Property → Option Finding}
    {skips : Property → Bool} (h : ∀ p, f globs p = if skips p then none else f [] p) :
    d.properties.filterMap (f globs) =
      d.properties.flatMap fun p => if skips p then [] else (f [] p).toList := by
  rw [List.filterMap_eq_flatMap_toList]
  refine List.flatMap_congr fun p _ => ?_
  rw [h p]
  split_ifs <;> rfl

/-- The globs of a rule decide which properties it passes over, and nothing else. -/
theorem findings_eq (hr : r ≠ .required) : d.findings c globs r =
    (d.properties.flatMap fun p => if d.passesOver globs r p then [] else d.findingsAt c r p) ++
      d.strayFindings r := by
  cases r with
  | form =>
    refine congrArg (· ++ _) (filterMap_eq_flatMap fun p => ?_)
    cases hmatch : NameGlob.anyMatch globs (d.fullName p) <;>
      simp [missingDelimiter?, passesOver, hmatch, anyMatch_nil]
  | unknown =>
    refine (filterMap_eq_flatMap fun p => ?_).trans (List.append_nil _).symm
    cases hexcluded : d.isExcluded globs p <;>
      simp [unknownKey?, passesOver, hexcluded, isExcluded_nil]
  | duplicate =>
    refine (filterMap_eq_flatMap (f := fun globs => d.duplicateKey? globs d.repeatedNames)
      fun p => ?_).trans (List.append_nil _).symm
    cases hexcluded : d.isExcluded globs p <;>
      simp [duplicateKey?, passesOver, hexcluded, isExcluded_nil]
  | value =>
    refine (filterMap_eq_flatMap fun p => ?_).trans (List.append_nil _).symm
    cases hexcluded : d.isExcluded globs p <;>
      simp [misfit?, passesOver, hexcluded, isExcluded_nil]
  | required => exact (hr rfl).elim
  | expression =>
    refine (List.flatMap_congr fun p _ => ?_).trans (List.append_nil _).symm
    rw [findingsAt]
    cases hv : p.value? <;> simp [passesOver]

/-- What a rule finds at a property is about it. -/
theorem mem_reported_of_findingsAt {f : Finding} (h : f ∈ d.findingsAt c r p) :
    f.span ∈ p.reported r ∧ (r = .form → f.propertyName ≠ none) := by
  cases r with
  | form =>
    obtain ⟨-, h⟩ := Option.ite_none_left_eq_some.mp (Option.mem_toList.mp h)
    obtain ⟨-, h⟩ := Option.ite_none_left_eq_some.mp h
    obtain rfl := Option.some.inj h
    exact ⟨List.mem_singleton_self _, fun _ => nofun⟩
  | unknown =>
    obtain ⟨-, h⟩ := Option.ite_none_left_eq_some.mp (Option.mem_toList.mp h)
    obtain rfl := Option.some.inj h
    exact ⟨List.mem_singleton_self _, nofun⟩
  | duplicate =>
    obtain ⟨-, h⟩ := Option.ite_none_left_eq_some.mp (Option.mem_toList.mp h)
    obtain rfl := Option.some.inj h
    exact ⟨List.mem_singleton_self _, nofun⟩
  | value =>
    obtain ⟨v, hv, h⟩ := Option.bind_eq_some_iff.mp (Option.mem_toList.mp h)
    obtain ⟨-, h⟩ := Option.ite_none_left_eq_some.mp h
    obtain ⟨known, -, h⟩ := Option.bind_eq_some_iff.mp h
    obtain ⟨-, h⟩ := Option.ite_none_left_eq_some.mp h
    obtain ⟨message, -, h⟩ := Option.bind_eq_some_iff.mp h
    obtain rfl := Option.some.inj h
    exact ⟨mem_reported_iff.mpr (Or.inr (Or.inl ⟨rfl, v, hv, rfl⟩)), nofun⟩
  | required => exact nomatch h
  | expression =>
    obtain ⟨v, hv, h⟩ := List.mem_flatMap.mp h
    obtain ⟨x, hx, h⟩ := List.mem_filterMap.mp h
    refine ⟨mem_reported_iff.mpr (Or.inr (Or.inr ⟨rfl, v, Option.mem_toList.mp hv, x, hx, ?_⟩)),
      nofun⟩
    exact span_of_expressionFinding? h

end Document

/-! ## One more glob -/

instance (pattern name : Text) : Decidable (pattern.Covers name) :=
  decidable_of_iff (∃ g ∈ NameGlob.parse? pattern, g.isMatch name = true)
    (exists_congr fun _ => and_congr_right fun _ => NameGlob.isMatch_iff)

namespace RuleSettings

/-- The settings with one more glob. -/
def exclude (s : RuleSettings) (pattern : Text) : RuleSettings :=
  { s with excluded := s.excluded ++ [pattern] }

variable {s : RuleSettings} {pattern : Text}

theorem Usable.of_exclude (h : (s.exclude pattern).Usable) : s.Usable :=
  fun t ht => h t (List.mem_append_left _ ht)

theorem anyMatch_exclude (h : (s.exclude pattern).Usable) (name : Text) :
    NameGlob.anyMatch (s.exclude pattern).exclusions name = true ↔
      NameGlob.anyMatch s.exclusions name = true ∨ pattern.Covers name := by
  rw [anyMatch_exclusions, anyMatch_exclusions, and_iff_right h, and_iff_right h.of_exclude]
  simp [exclude, or_and_right, exists_or]

theorem exclusions_of_not_usable (h : ¬s.Usable) : s.exclusions = [] := by
  refine if_pos (List.any_eq_true.mpr ?_)
  simp only [Usable, not_forall, Nat.not_lt] at h
  obtain ⟨t, ht, g, hparse, hdeep⟩ := h
  exact ⟨g, List.mem_filterMap.mpr ⟨t, ht, hparse⟩, decide_eq_true hdeep⟩

end RuleSettings

/-- A rule without globs is the same whether it had one more or not. -/
theorem Settings.clear_exclude (s : Settings) {r : Rule} {pattern : Text} :
    (s.exclude r pattern).setRule r { (s.exclude r pattern).rule r with excluded := [] } =
      s.setRule r { s.rule r with excluded := [] } := by
  cases r <;> rfl

namespace Document

/-- A rule leaves a property alone because of a pattern. The rule on the form of a document looks at
the name with the profile only. -/
def IsSpared (d : Document) (r : Rule) (p : Property) (pattern : Text) : Prop :=
  match r with
  | .form => pattern.Covers (d.fullName p)
  | _ => d.IsCovered p pattern

instance (d : Document) (p : Property) (pattern : Text) : Decidable (d.IsCovered p pattern) :=
  inferInstanceAs (Decidable (_ ∨ _))

instance (d : Document) (r : Rule) (p : Property) (pattern : Text) :
    Decidable (d.IsSpared r p pattern) :=
  match r with
  | .form => inferInstanceAs (Decidable (Text.Covers _ _))
  | .unknown | .duplicate | .value | .required | .expression =>
    inferInstanceAs (Decidable (d.IsCovered _ _))

/-- The diagnostics without those that a rule gives about properties of some kind. -/
def without (d : Document) (gs : List Diagnostic) (r : Rule) (spared : Property → Prop)
    [DecidablePred spared] : List Diagnostic :=
  gs.filter fun g => ¬(g.rule = r ∧ ∃ p ∈ d.properties, g.IsAbout p ∧ spared p)

variable {d : Document} {c : Catalog} {s : Settings} {r : Rule} {pattern : Text} {p : Property}

theorem passesOver_exclude {s : RuleSettings} (h : (s.exclude pattern).Usable) :
    d.passesOver (s.exclude pattern).exclusions r p = true ↔
      d.passesOver s.exclusions r p = true ∨ d.IsSpared r p pattern := by
  have hname := RuleSettings.anyMatch_exclude h (d.name p)
  have hfull := RuleSettings.anyMatch_exclude h (d.fullName p)
  have hexcluded : d.isExcluded (s.exclude pattern).exclusions p = true ↔
      d.isExcluded s.exclusions p = true ∨ d.IsCovered p pattern := by
    rw [isExcluded, isExcluded, Bool.or_eq_true, Bool.or_eq_true, hname, hfull, IsCovered]
    exact or_or_or_comm
  cases r with
  | form => exact hfull
  | unknown | duplicate | value | required | expression => exact hexcluded

theorem without_append (gs gs' : List Diagnostic) (spared : Property → Prop)
    [DecidablePred spared] :
    d.without (gs ++ gs') r spared = d.without gs r spared ++ d.without gs' r spared :=
  List.filter_append ..

theorem without_flatMap {α : Type} (l : List α) (f : α → List Diagnostic)
    (spared : Property → Prop) [DecidablePred spared] :
    d.without (l.flatMap f) r spared = l.flatMap fun x => d.without (f x) r spared :=
  List.filter_flatMap ..

theorem mem_without_iff {g : Diagnostic} {gs : List Diagnostic} {spared : Property → Prop}
    [DecidablePred spared] : g ∈ d.without gs r spared ↔
      g ∈ gs ∧ ¬(g.rule = r ∧ ∃ p ∈ d.properties, g.IsAbout p ∧ spared p) := by
  rw [without, List.mem_filter, decide_eq_true_iff]

theorem without_eq_self {gs : List Diagnostic} {spared : Property → Prop} [DecidablePred spared]
    (h : ∀ g ∈ gs, g.rule = r → ∀ p ∈ d.properties, g.IsAbout p → ¬spared p) :
    d.without gs r spared = gs := by
  refine List.filter_eq_self.mpr fun g hg => decide_eq_true ?_
  rintro ⟨hrule, p, hp, habout, hspared⟩
  exact h g hg hrule p hp habout hspared

theorem without_eq_nil {gs : List Diagnostic} {spared : Property → Prop} [DecidablePred spared]
    (h : ∀ g ∈ gs, g.rule = r ∧ ∃ p ∈ d.properties, g.IsAbout p ∧ spared p) :
    d.without gs r spared = [] := by
  refine List.filter_eq_nil_iff.mpr fun g hg => ?_
  simpa using h g hg

/-- A finding at a property becomes a diagnostic about it. -/
theorem isAbout_of_findingsAt {severity : Severity} {g : Diagnostic}
    (h : g ∈ (d.findingsAt c r p).filterMap (d.place? r severity)) :
    g.rule = r ∧ g.IsAbout p := by
  obtain ⟨f, hf, hplace⟩ := List.mem_filterMap.mp h
  obtain ⟨-, rfl, hspan, hname⟩ := eq_of_place? hplace
  obtain ⟨hmem, hform⟩ := mem_reported_of_findingsAt hf
  exact ⟨rfl, hspan ▸ hmem, fun hrule => hname ▸ hform hrule⟩

/-- A finding apart from properties becomes a diagnostic about none. -/
theorem not_isAbout_of_strayFindings {severity : Severity} {g : Diagnostic}
    (h : g ∈ (d.strayFindings r).filterMap (d.place? r severity)) : ¬g.IsAbout p := by
  obtain ⟨f, hf, hplace⟩ := List.mem_filterMap.mp h
  obtain ⟨-, rfl, -, hname⟩ := eq_of_place? hplace
  intro habout
  unfold strayFindings at hf
  split at hf
  · rename_i hrule
    obtain ⟨e, -, rfl⟩ := List.mem_map.mp hf
    exact habout.2 hrule hname
  · exact nomatch hf

variable {b : Buffer}

/-- One more glob takes away what the rule finds at the properties that the glob spares. -/
theorem ruleDiagnostics_exclude (hr : r ≠ .required)
    (husable : ((s.exclude r pattern).rule r).Usable) :
    (ofBuffer b).ruleDiagnostics c (s.exclude r pattern) r =
      (ofBuffer b).without ((ofBuffer b).ruleDiagnostics c s r) r
        ((ofBuffer b).IsSpared r · pattern) := by
  have hrule : (s.exclude r pattern).rule r = (s.rule r).exclude pattern := s.rule_exclude r pattern
  rw [hrule] at husable
  by_cases hoff : (s.rule r).severity = .off
  · rw [ruleDiagnostics_of_off hoff, ruleDiagnostics_of_off (by rw [hrule]; exact hoff)]
    rfl
  rw [ruleDiagnostics_of_ne_off hoff, ruleDiagnostics_of_ne_off (by rw [hrule]; exact hoff), hrule,
    findings_eq hr, findings_eq hr, List.filterMap_append, List.filterMap_append,
    List.filterMap_flatMap, List.filterMap_flatMap, without_append, without_flatMap]
  congr 1
  · refine List.flatMap_congr fun p hp => ?_
    have hpasses := passesOver_exclude (d := ofBuffer b) (r := r) (p := p) husable
    by_cases hbefore : (ofBuffer b).passesOver (s.rule r).exclusions r p = true
    · rw [if_pos (hpasses.mpr (Or.inl hbefore)), if_pos hbefore]
      rfl
    rw [if_neg hbefore]
    by_cases hspared : (ofBuffer b).IsSpared r p pattern
    · rw [if_pos (hpasses.mpr (Or.inr hspared))]
      refine (without_eq_nil fun g hg => ?_).symm
      obtain ⟨hrule, habout⟩ := isAbout_of_findingsAt hg
      exact ⟨hrule, p, hp, habout, hspared⟩
    · rw [if_neg (by simp [hpasses, hbefore, hspared])]
      refine (without_eq_self fun g hg hrule q hq habout hspared' => hspared ?_).symm
      -- The diagnostic has no other owner.
      obtain ⟨-, habout'⟩ := isAbout_of_findingsAt hg
      rwa [eq_of_mem_reported hp hq habout'.1 habout.1]
  · exact (without_eq_self fun g hg _ q _ habout _ =>
      not_isAbout_of_strayFindings hg habout).symm

/-- One more glob for a rule takes away its diagnostics on the properties that the glob spares, and
nothing else. -/
theorem diagnostics_exclude (hr : r ≠ .required)
    (husable : ((s.exclude r pattern).rule r).Usable) :
    (ofBuffer b).diagnostics c (s.exclude r pattern) =
      (ofBuffer b).without ((ofBuffer b).diagnostics c s) r
        ((ofBuffer b).IsSpared r · pattern) := by
  have henabled := s.enabled_exclude r pattern
  by_cases hs : s.enabled = true
  · rw [diagnostics_eq_flatMap hs, diagnostics_eq_flatMap (henabled.trans hs), without_flatMap]
    refine List.flatMap_congr fun r' _ => ?_
    by_cases hr' : r' = r
    · subst hr'
      exact ruleDiagnostics_exclude hr husable
    · have hrule : (s.exclude r pattern).rule r' = s.rule r' :=
        (s.rule_setRule r r' _).trans (if_neg hr')
      rw [ruleDiagnostics_congr hrule]
      refine (without_eq_self fun g hg hrule' => ?_).symm
      exact (hr' ((of_mem_ruleDiagnostics hg).1.symm.trans hrule')).elim
  · rw [diagnostics_of_disabled hs, diagnostics_of_disabled (by rwa [henabled])]
    rfl

/-- If the globs of a rule are not used, it reports as if it had none. -/
theorem diagnostics_of_not_usable (h : ¬(s.rule r).Usable) :
    d.diagnostics c s = d.diagnostics c (s.setRule r { s.rule r with excluded := [] }) := by
  have henabled := s.enabled_setRule r { s.rule r with excluded := [] }
  by_cases hs : s.enabled = true
  · rw [diagnostics_eq_flatMap hs, diagnostics_eq_flatMap (henabled.trans hs)]
    refine List.flatMap_congr fun r' _ => ?_
    have hrule := s.rule_setRule r r' { s.rule r with excluded := [] }
    split_ifs at hrule with hr
    · subst hr
      rw [ruleDiagnostics, ruleDiagnostics, hrule, RuleSettings.exclusions_of_not_usable h]
      rfl
    · exact (ruleDiagnostics_congr hrule).symm
  · rw [diagnostics_of_disabled hs, diagnostics_of_disabled (by rwa [henabled])]

/-- One more pattern for a rule takes away its diagnostics on the properties whose name the pattern
describes, with or without the profile, and nothing else. A pattern that is no glob describes no
name and takes nothing away. -/
def ExcludesEvenly (d : Document) (c : Catalog) (s : Settings) (r : Rule) (pattern : Text) : Prop :=
  d.diagnostics c (s.exclude r pattern) =
    d.without (d.diagnostics c s) r (d.IsCovered · pattern)

/-- One more pattern for a rule that is about properties :

* if the list of globs is used, it takes away the diagnostics of the rule on the properties that the
  pattern spares, and nothing else;
* these are the properties whose name it describes, with or without the profile, unless the rule is
  the one on the form of a document and reports a key whose name only fits without the profile;
* if the list is not used, the rule reports as if it had no globs. -/
theorem excludesEvenly_iff (b : Buffer) (c : Catalog) (s : Settings) {r : Rule}
    (hr : r ≠ .required) (pattern : Text) :
    (((s.exclude r pattern).rule r).Usable →
      (ofBuffer b).diagnostics c (s.exclude r pattern) =
        (ofBuffer b).without ((ofBuffer b).diagnostics c s) r
          ((ofBuffer b).IsSpared r · pattern) ∧
      ((ofBuffer b).ExcludesEvenly c s r pattern ↔
        (r = .form → ∀ g ∈ (ofBuffer b).diagnostics c s, g.rule = .form →
          ∀ p ∈ (ofBuffer b).properties, g.IsAbout p → pattern.Covers ((ofBuffer b).name p) →
            pattern.Covers ((ofBuffer b).fullName p)))) ∧
    (¬((s.exclude r pattern).rule r).Usable →
      (ofBuffer b).diagnostics c (s.exclude r pattern) =
        (ofBuffer b).diagnostics c (s.setRule r { s.rule r with excluded := [] })) := by
  refine ⟨fun husable => ?_, fun husable => ?_⟩
  · have hexclude := diagnostics_exclude (b := b) (c := c) hr husable
    refine ⟨hexclude, ?_⟩
    rw [ExcludesEvenly, hexclude]
    constructor
    · rintro heven rfl g hg hrule p hp habout hname
      by_contra hfull
      -- The diagnostic is still there, although the pattern describes the name.
      have hkept : g ∈ (ofBuffer b).without ((ofBuffer b).diagnostics c s) .form
          ((ofBuffer b).IsSpared .form · pattern) := by
        refine mem_without_iff.mpr ⟨hg, ?_⟩
        rintro ⟨-, q, hq, habout', hspared⟩
        obtain rfl := eq_of_mem_reported hp hq habout.1 habout'.1
        exact hfull hspared
      rw [heven] at hkept
      exact (mem_without_iff.mp hkept).2 ⟨hrule, p, hp, habout, Or.inl hname⟩
    · intro hform
      refine List.filter_congr fun g hg => decide_eq_decide.mpr (not_congr ?_)
      refine and_congr_right fun hrule => exists_congr fun p => and_congr_right fun hp =>
        and_congr_right fun habout => ?_
      cases r with
      | form =>
        exact ⟨Or.inr, fun hcovered => hcovered.elim (hform rfl g hg hrule p hp habout) id⟩
      | unknown | duplicate | value | required | expression => exact Iff.rfl
  · rw [diagnostics_of_not_usable husable, s.clear_exclude]

/-- A key of a profile whose name the pattern describes, with an expression that is not closed. The
rule on expressions leaves it alone. -/
theorem excludesEvenly_iff_profile : ∃ (b : Buffer) (g : Diagnostic),
    b.text = ['%', 'd', '.', 'a', '=', '$', '{', 'b'] ∧
    (ofBuffer b).diagnostics .empty (({} : Settings).only .expression) = [g] ∧ g.span = ⟨5, 8⟩ ∧
    (ofBuffer b).ExcludesEvenly .empty (({} : Settings).only .expression) .expression ['a'] ∧
    (ofBuffer b).diagnostics .empty
      ((({} : Settings).only .expression).exclude .expression ['a']) = [] := by
  let b : Buffer := ⟨"u", ['%', 'd', '.', 'a', '=', '$', '{', 'b'], 1⟩
  let s : Settings := ({} : Settings).only .expression
  have husable : ((s.exclude .expression ['a']).rule .expression).Usable := by
    intro t ht g hg
    obtain rfl := List.mem_singleton.mp ht
    obtain rfl := Option.some.inj hg
    decide
  obtain ⟨hused, -⟩ := excludesEvenly_iff b .empty s (r := .expression) nofun ['a']
  obtain ⟨hexclude, heven⟩ := hused husable
  refine ⟨b, ⟨⟨⟨0, 5⟩, ⟨0, 8⟩⟩, ⟨5, 8⟩, .error, .expression, "Missing '\x7d'", none⟩, rfl,
    by decide, rfl, heven.mpr nofun, hexclude.trans ?_⟩
  decide

/-- A key of a profile without a delimiter. The pattern describes its name, and it is reported all
the same. -/
theorem exists_not_excludesEvenly : ∃ (b : Buffer) (p : Property) (g : Diagnostic),
    b.text = ['%', 'd', '.', 'a'] ∧ (ofBuffer b).properties = [p] ∧
    (ofBuffer b).name p = ['a'] ∧ Text.Covers ['a'] ((ofBuffer b).name p) ∧
    (ofBuffer b).diagnostics .empty (({} : Settings).only .form) = [g] ∧ g.IsAbout p ∧
    (ofBuffer b).diagnostics .empty ((({} : Settings).only .form).exclude .form ['a']) = [g] ∧
    ¬(ofBuffer b).ExcludesEvenly .empty (({} : Settings).only .form) .form ['a'] := by
  let b : Buffer := ⟨"u", ['%', 'd', '.', 'a'], 1⟩
  let g : Diagnostic := ⟨⟨⟨0, 0⟩, ⟨0, 4⟩⟩, ⟨0, 4⟩, .error, .form,
    "Missing equals sign after '%d.a'", some ['%', 'd', '.', 'a']⟩
  refine ⟨b, _, g, rfl, rfl, by decide, by decide, by decide, by decide, by decide, ?_⟩
  unfold ExcludesEvenly
  decide

end Document

end DotProperties
