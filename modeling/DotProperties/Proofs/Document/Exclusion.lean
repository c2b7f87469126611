import DotProperties.Proofs.Document.Lookup
import DotProperties.Proofs.Glob.Plain

/-!
# Names that are left alone

A rule leaves a property alone if one of its globs describes the name of the property, with or
without the profile, and braces stand in braces too deep in none of its globs
(`Document.isExcluded_iff`).

An action that leaves an unknown key alone adds one glob, which is the name of the key as it stands
or an ancestor of it with a star behind. The glob is the plain text, although a few characters mean
something else in a glob. So the diagnostic is gone exactly if the text, read as a glob, describes
the name (`Document.unreported_iff`). This is so for every name without such characters, as long as
the list of globs is used at all. A key with an index in brackets is reported again
(`Document.exists_reported_again`).
-/

namespace DotProperties

open Event

/-! ## Lists of globs -/

/-- The pattern is a glob that describes the name. -/
def Text.Covers (pattern name : Text) : Prop :=
  ∃ g, NameGlob.parse? pattern = some g ∧ g.Describes name

/-- The globs of a rule are used : braces stand in braces too deep in none of them. -/
def RuleSettings.Usable (s : RuleSettings) : Prop :=
  ∀ pattern ∈ s.excluded, ∀ g, NameGlob.parse? pattern = some g → g.depth < deepestBraces

theorem RuleSettings.anyMatch_exclusions {s : RuleSettings} {name : Text} :
    NameGlob.anyMatch s.exclusions name = true ↔
      s.Usable ∧ ∃ pattern ∈ s.excluded, pattern.Covers name := by
  have husable : (s.excluded.filterMap NameGlob.parse?).any
      (fun g => decide (deepestBraces ≤ g.depth)) = false ↔ s.Usable := by
    simp only [List.any_eq_false, List.mem_filterMap, decide_eq_true_eq, Nat.not_le, Usable]
    exact ⟨fun h t ht g hg => h g ⟨t, ht, hg⟩, fun h g ⟨t, ht, hg⟩ => h t ht g hg⟩
  rw [exclusions]
  split_ifs with hdeep
  · refine iff_of_false nofun fun h => ?_
    exact Bool.noConfusion (hdeep.symm.trans (husable.mpr h.1))
  · have hused := husable.mp (Bool.eq_false_iff.mpr hdeep)
    rw [NameGlob.anyMatch, List.any_eq_true, and_iff_right hused]
    constructor
    · rintro ⟨g, hg, hmatch⟩
      obtain ⟨pattern, hpattern, hparse⟩ := List.mem_filterMap.mp hg
      exact ⟨pattern, hpattern, g, hparse, NameGlob.isMatch_iff.mp hmatch⟩
    · rintro ⟨pattern, hpattern, g, hparse, hdescribes⟩
      exact ⟨g, List.mem_filterMap.mpr ⟨pattern, hpattern, hparse⟩,
        NameGlob.isMatch_iff.mpr hdescribes⟩

namespace Settings

variable (s : Settings) (r : Rule) (pattern : Text)

theorem rule_exclude : (s.exclude r pattern).rule r =
    { s.rule r with excluded := (s.rule r).excluded ++ [pattern] } := by
  cases r <;> rfl

theorem enabled_exclude : (s.exclude r pattern).enabled = s.enabled := by
  cases r <;> rfl

end Settings

/-! ## Reports -/

namespace Document

/-- The pattern describes the name of a property, with or without the profile. -/
def IsCovered (d : Document) (p : Property) (pattern : Text) : Prop :=
  pattern.Covers (d.name p) ∨ pattern.Covers (d.fullName p)

theorem isExcluded_iff {d : Document} {s : RuleSettings} {p : Property} :
    d.isExcluded s.exclusions p = true ↔
      s.Usable ∧ ∃ pattern ∈ s.excluded, d.IsCovered p pattern := by
  rw [isExcluded, Bool.or_eq_true, RuleSettings.anyMatch_exclusions,
    RuleSettings.anyMatch_exclusions, ← and_or_left, ← exists_or]
  simp only [← and_or_left, IsCovered]

/-- A rule reports a span of the document. -/
def Reports (d : Document) (c : Catalog) (s : Settings) (r : Rule) (span : Span) : Prop :=
  ∃ g ∈ d.diagnostics c s, g.rule = r ∧ g.span = span

variable {b : Buffer} {c : Catalog} {p : Property}

/-- No two properties have their keys in one place. -/
theorem eq_of_key_eq {q : Property} (hp : p ∈ (ofBuffer b).properties)
    (hq : q ∈ (ofBuffer b).properties) (h : p.key = q.key) : p = q := by
  have hat := keyAt?_start hp
  rw [h, keyAt?_start hq] at hat
  exact (Option.some.inj hat).symm

/-- A key is reported as unknown if it has a name that is neither known nor left alone. -/
theorem reports_unknown_iff {s : Settings} (hp : p ∈ (ofBuffer b).properties) :
    (ofBuffer b).Reports c s .unknown p.key ↔
      s.enabled = true ∧ (s.rule .unknown).isEnabled = true ∧ (ofBuffer b).name p ≠ [] ∧
        c.find? ((ofBuffer b).name p) = none ∧
          (ofBuffer b).isExcluded (s.rule .unknown).exclusions p = false := by
  constructor
  · rintro ⟨g, hg, hrule, hspan⟩
    obtain ⟨henabled, hrules, f, hf, hplace⟩ := mem_diagnostics_iff.mp hg
    rw [hrule] at hrules hf
    obtain ⟨q, hq, hname, hunknown, hexcluded, rfl⟩ := mem_unknownFindings_iff.mp hf
    obtain ⟨-, -, hkey, -⟩ := eq_of_place? hplace
    obtain rfl := eq_of_key_eq hp hq (hspan.symm.trans hkey)
    exact ⟨henabled, hrules, hname, hunknown, hexcluded⟩
  · rintro ⟨henabled, hrules, hname, hunknown, hexcluded⟩
    let f : Finding :=
      ⟨p.key, quoteName "Unknown property" ((ofBuffer b).name p), some ((ofBuffer b).name p)⟩
    have hf : f ∈ (ofBuffer b).unknownFindings c (s.rule .unknown).exclusions :=
      mem_unknownFindings_iff.mpr ⟨p, hp, hname, hunknown, hexcluded, rfl⟩
    obtain ⟨range, -, hplace⟩ := exists_place_of_bounds (f := f) (Tree.bounds_key hp) .unknown
      (s.rule .unknown).severity
    let g : Diagnostic :=
      ⟨range, p.key, (s.rule .unknown).severity, .unknown, f.message, f.propertyName⟩
    exact ⟨g, mem_diagnostics_iff.mpr ⟨henabled, hrules, f, hf, hplace⟩, rfl, rfl⟩

/-- With one more glob a key that was reported is not reported any more if that glob describes it
and the list of globs is used. -/
theorem not_reports_exclude_iff {s : Settings} (hp : p ∈ (ofBuffer b).properties)
    (h : (ofBuffer b).Reports c s .unknown p.key) (pattern : Text) :
    ¬(ofBuffer b).Reports c (s.exclude .unknown pattern) .unknown p.key ↔
      ((s.exclude .unknown pattern).rule .unknown).Usable ∧ (ofBuffer b).IsCovered p pattern := by
  obtain ⟨henabled, hrules, hname, hunknown, hkept⟩ := (reports_unknown_iff hp).mp h
  have hrules' : ((s.exclude .unknown pattern).rule .unknown).isEnabled = true := by
    rw [Settings.rule_exclude]
    exact hrules
  rw [reports_unknown_iff hp, Settings.enabled_exclude]
  simp only [henabled, hrules', hname, hunknown, true_and, not_false_eq_true, ne_eq,
    Bool.not_eq_false, isExcluded_iff]
  rw [Settings.rule_exclude]
  refine and_congr_right fun husable => ⟨?_, fun hcovered => ⟨pattern, by simp, hcovered⟩⟩
  rintro ⟨t, ht, hcovered⟩
  rcases List.mem_append.mp ht with ht | ht
  · -- A glob of the list before would have left the key alone already.
    have hbefore : (s.rule .unknown).Usable := fun t ht => husable t (List.mem_append_left _ ht)
    rw [isExcluded_iff.mpr ⟨hbefore, t, ht, hcovered⟩] at hkept
    exact Bool.noConfusion hkept
  · rwa [← List.mem_singleton.mp ht]

end Document

/-! ## Actions that leave names alone -/

theorem Text.exists_of_mem_ancestorsFrom {done a : Text} {found : List Text} {t : Text}
    (h : a ∈ ancestorsFrom done found t) :
    a ∈ found ∨ ∃ x rest, t = x ++ '.' :: rest ∧ a = done.reverse ++ x := by
  induction t generalizing done found with
  | nil => exact Or.inl h
  | cons c t ih =>
    rw [ancestorsFrom] at h
    rcases ih h with h | ⟨x, rest, rfl, rfl⟩
    · split_ifs at h with hdot
      · rcases List.mem_cons.mp h with rfl | h
        · exact Or.inr ⟨[], t, by rw [beq_iff_eq.mp hdot]; rfl, (List.append_nil _).symm⟩
        · exact Or.inl h
      · exact Or.inl h
    · exact Or.inr ⟨c :: x, rest, rfl, by simp⟩

/-- An ancestor of a name stands before a dot of it. -/
theorem Text.exists_of_mem_ancestors {name a : Text} (h : a ∈ name.ancestors) :
    ∃ rest, name = a ++ '.' :: rest := by
  rcases exists_of_mem_ancestorsFrom h with h | ⟨x, rest, hname, rfl⟩
  · exact nomatch h
  · exact ⟨rest, hname⟩

namespace Document

variable {b : Buffer} {c : Catalog} {g : Diagnostic} {a : Action} {p : Property} {pattern : Text}

/-- What is on offer to be left alone is the name of the key, or an ancestor with a star behind. -/
theorem exists_of_mem_unknownFixes_exclude {fs : FixSettings} (hp : p ∈ (ofBuffer b).properties)
    (hspan : g.span = p.key) (hname : (ofBuffer b).name p ≠ [])
    (ha : a ∈ Step.results ((ofBuffer b).unknownFixes c fs g))
    (hremedy : a.remedy = .excludeUnknown pattern) :
    pattern = (ofBuffer b).name p ∨ ∃ ancestor rest,
      (ofBuffer b).name p = ancestor ++ '.' :: rest ∧ pattern = ancestor ++ ['.', '*'] := by
  have hat := keyAt?_start hp
  rw [← hspan] at hat
  simp only [unknownFixes, hat, name?_of_ne_nil hname] at ha
  rcases List.mem_append.mp (Step.mem_results_polled.mp ha) with ha | ha
  · obtain ⟨t, -, ha⟩ := List.mem_map.mp ha
    obtain ⟨-, range, -, hedits⟩ := eq_of_replacement? ha
    cases hremedy.symm.trans hedits
  · obtain ⟨t, ht, ha⟩ := List.mem_map.mp ha
    obtain rfl := Option.some.inj ha
    obtain rfl := Remedy.excludeUnknown.inj hremedy
    rcases List.mem_cons.mp ht with rfl | ht
    · exact Or.inl rfl
    · obtain ⟨ancestor, hancestor, rfl⟩ := List.mem_map.mp ht
      obtain ⟨rest, hrest⟩ := Text.exists_of_mem_ancestors (List.mem_of_mem_filter hancestor)
      exact Or.inr ⟨ancestor, rest, hrest, rfl⟩

/-- A pattern on offer describes the name if no character of the name means something else in a
glob, and it has no braces. -/
theorem covers_of_plain {name : Text} (hplain : ∀ ch ∈ name, isGlobSyntax ch = false)
    (h : pattern = name ∨ ∃ ancestor rest, name = ancestor ++ '.' :: rest ∧
      pattern = ancestor ++ ['.', '*']) :
    ∃ glob, NameGlob.parse? pattern = some glob ∧ glob.depth = 0 ∧ glob.Describes name := by
  rcases h with rfl | ⟨ancestor, rest, rfl, rfl⟩
  · exact NameGlob.exists_parse?_plain hplain
  · exact NameGlob.exists_parse?_descendants (fun ch hch => hplain ch (List.mem_append_left _ hch))
      rest

/-- After an action that leaves an unknown key alone, the key is not reported any more exactly if
the pattern of the action, read as a glob, describes the name of the property, with or without the
profile, and the list of globs is used. For a name without characters of globs the pattern does so,
and only a list that was not used before keeps the key reported. -/
theorem unreported_iff {s : Settings} {fs : FixSettings} {gs : List Diagnostic}
    (hg : g ∈ (ofBuffer b).diagnostics c s) (hrule : g.rule = .unknown)
    (ha : a ∈ Step.results ((ofBuffer b).fixes c fs gs)) (hfor : a.diagnostics = [g])
    (hremedy : a.remedy = .excludeUnknown pattern) :
    ∃ p ∈ (ofBuffer b).properties, p.key = g.span ∧
      g.propertyName = some ((ofBuffer b).name p) ∧
      (¬(ofBuffer b).Reports c (s.exclude .unknown pattern) .unknown g.span ↔
        ((s.exclude .unknown pattern).rule .unknown).Usable ∧
          (ofBuffer b).IsCovered p pattern) ∧
      ((∀ ch ∈ (ofBuffer b).name p, isGlobSyntax ch = false) →
        (¬(ofBuffer b).Reports c (s.exclude .unknown pattern) .unknown g.span ↔
          (s.rule .unknown).Usable)) := by
  obtain ⟨p, hp, hspan, hpropertyName, hname⟩ := exists_of_unknown hg hrule
  have hbefore : (ofBuffer b).Reports c s .unknown p.key := ⟨g, hg, hrule, hspan⟩
  have hiff := not_reports_exclude_iff hp hbefore pattern
  rw [← hspan] at hiff
  refine ⟨p, hp, hspan.symm, hpropertyName, hiff, fun hplain => hiff.trans ?_⟩
  have ha' := mem_fixesFor_of_mem_fixes ha hfor (by rw [hrule]; exact nofun)
  rw [fixesFor, Step.results_poll_cons, hrule] at ha'
  obtain ⟨glob, hparse, hdepth, hdescribes⟩ :=
    covers_of_plain hplain (exists_of_mem_unknownFixes_exclude hp hspan hname ha' hremedy)
  have hcovered : (ofBuffer b).IsCovered p pattern := Or.inl ⟨glob, hparse, hdescribes⟩
  rw [and_iff_left hcovered, Settings.rule_exclude]
  refine ⟨fun husable t ht => husable t (List.mem_append_left _ ht),
    fun husable t ht glob' ht' => ?_⟩
  rcases List.mem_append.mp ht with ht | ht
  · exact husable t ht glob' ht'
  · rw [List.mem_singleton.mp ht, hparse] at ht'
    obtain rfl := Option.some.inj ht'
    rw [hdepth]
    decide

/-- A key with a profile, and the glob of everything under the parent of its name. -/
theorem unreported_iff_descendants :
    ∃ (b : Buffer) (g : Diagnostic) (a : Action),
      b.text = ['%', 'd', '.', 'a', '.', 'b', '=', '1'] ∧
      g ∈ (ofBuffer b).diagnostics .empty {} ∧ g.span = ⟨0, 6⟩ ∧
      a ∈ Step.results ((ofBuffer b).fixes .empty {} [g]) ∧
      a.remedy = .excludeUnknown ['a', '.', '*'] ∧
      ¬(ofBuffer b).Reports .empty (({} : Settings).exclude .unknown ['a', '.', '*']) .unknown
        g.span := by
  let b : Buffer := ⟨"u", ['%', 'd', '.', 'a', '.', 'b', '=', '1'], 1⟩
  let g : Diagnostic := ⟨⟨⟨0, 0⟩, ⟨0, 6⟩⟩, ⟨0, 6⟩, .warning, .unknown, "Unknown property 'a.b'",
    some ['a', '.', 'b']⟩
  have hg : g ∈ (ofBuffer b).diagnostics .empty {} := by decide
  have ha : Action.exclude g ['a', '.', '*'] ∈ Step.results ((ofBuffer b).fixes .empty {} [g]) := by
    decide
  obtain ⟨p, -, -, hname, -, hplain⟩ := unreported_iff hg rfl ha rfl rfl
  have hunused : ((({} : Settings).rule .unknown).Usable) := nofun
  refine ⟨b, g, _, rfl, hg, rfl, ha, rfl, (hplain ?_).mpr hunused⟩
  rw [← Option.some.inj hname]
  simp [isGlobSyntax]

/-- A key with an index. Its name as a glob stands for `foo0`, and the key is reported again. -/
theorem exists_reported_again :
    ∃ (b : Buffer) (g : Diagnostic) (a : Action) (pattern : Text),
      b.text = ['f', 'o', 'o', '[', '0', ']', '=', 'x'] ∧
      g ∈ (ofBuffer b).diagnostics .empty {} ∧ g.rule = .unknown ∧
      a ∈ Step.results ((ofBuffer b).fixes .empty {} [g]) ∧ a.diagnostics = [g] ∧
      a.remedy = .excludeUnknown pattern ∧
      (ofBuffer b).Reports .empty (({} : Settings).exclude .unknown pattern) .unknown g.span := by
  let b : Buffer := ⟨"u", ['f', 'o', 'o', '[', '0', ']', '=', 'x'], 1⟩
  let pattern : Text := ['f', 'o', 'o', '[', '0', ']']
  let g : Diagnostic := ⟨⟨⟨0, 0⟩, ⟨0, 6⟩⟩, ⟨0, 6⟩, .warning, .unknown,
    "Unknown property 'foo[0]'", some pattern⟩
  exact ⟨b, g, Action.exclude g pattern, pattern, rfl, by decide, rfl, by decide, rfl, rfl,
    g, by decide, rfl, rfl⟩

end Document

end DotProperties
