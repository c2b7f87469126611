import DotProperties.Proofs.Catalog.Choices
import DotProperties.Proofs.Document.Diagnosis

/-!
# Values on offer

A value that does not fit its property is replaced by one of the listed values, in any spelling of
it. Which values are listed and which fit is decided in two places, by the hint of the property or,
without one, by its type (`Catalog.choices?`, `Catalog.valueError?`). Still every spelling of a
listed value fits (`Catalog.valueError?_eq_none_of_mem`). The listed values of a hint are admitted,
and the truth values are spelled the same with every converter.

So an action on a value writes one that fits in its place (`Document.offer_fits`).
-/

namespace DotProperties

/-! ## Listed values fit -/

/-- The truth values are in kebab case already. -/
theorem Converter.convert_boolean {choice : Choice} (h : choice ∈ Catalog.booleanChoices)
    (converter : Converter) : converter.convert choice.value = choice.value := by
  revert choice
  cases converter <;> decide

theorem Choice.spellings_boolean {choice : Choice} (h : choice ∈ Catalog.booleanChoices)
    {converters : List Converter} {t : Text} (ht : t ∈ choice.spellings converters) :
    t = choice.value := by
  rw [spellings] at ht
  split_ifs at ht
  · exact List.mem_singleton.mp ht
  · obtain ⟨converter, -, rfl⟩ := List.mem_map.mp ht
    exact converter.convert_boolean h

theorem Choice.isBoolean_value {choice : Choice} (h : choice ∈ Catalog.booleanChoices) :
    choice.value.isBoolean = true := by
  revert choice
  decide

/-- A spelling of a listed value fits the property. -/
theorem Catalog.valueError?_eq_none_of_mem {c : Catalog} {known : KnownProperty} {choice : Choice}
    {t : Text} (hchoice : choice ∈ (c.choices? known).getD [])
    (ht : t ∈ choice.spellings known.converters) : c.valueError? known t = none := by
  cases hhint : c.hintFor? known with
  | some h =>
    have hchoices : c.choices? known = some ((c.target? h).getD h).choices := by
      rw [choices?, hhint]
    rw [hchoices, Option.getD_some] at hchoice
    have hlists : c.Lists known t := ⟨_, hchoices, choice, hchoice, Choice.accepts_iff.mpr ht⟩
    simp only [valueError?, hhint, Option.isSome_some, if_true, admits_of_lists hhint hlists]
  | none =>
    rw [choices?, hhint] at hchoice
    split_ifs at hchoice with hkind
    · rw [Option.getD_some] at hchoice
      have hfits : known.valueKind.fits t = true := by
        rw [hkind, ValueKind.fits, choice.spellings_boolean hchoice ht]
        exact choice.isBoolean_value hchoice
      simp [valueError?, hhint, hfits]
    · cases hchoice

namespace Document

/-! ## Values that do not fit -/

variable {d : Document} {c : Catalog} {g : Diagnostic} {a : Action}

/-- A value is found if it does not fit the known property of its name. -/
theorem exists_of_misfit? {globs : List NameGlob} {p : Property} {f : Finding}
    (h : d.misfit? c globs p = some f) : ∃ v known message, p.value? = some v ∧
      c.find? (d.name p) = some known ∧
      c.valueError? known (d.logical v.span).trim = some message ∧
      f = ⟨v.span, message, some (d.name p)⟩ := by
  obtain ⟨v, hv, h⟩ := Option.bind_eq_some_iff.mp h
  obtain ⟨-, h⟩ := Option.ite_none_left_eq_some.mp h
  obtain ⟨known, hknown, h⟩ := Option.bind_eq_some_iff.mp h
  obtain ⟨-, h⟩ := Option.ite_none_left_eq_some.mp h
  obtain ⟨message, hmessage, h⟩ := Option.bind_eq_some_iff.mp h
  exact ⟨v, known, message, hv, hknown, hmessage, (Option.some.inj h).symm⟩

/-- A diagnostic on a value is at a value that does not fit the known property of its name, and
every action for it that edits the text writes one that does in its place. -/
theorem offer_fits (b : Buffer) (c : Catalog) (s : Settings) (fs : FixSettings)
    (gs : List Diagnostic) {g : Diagnostic} (hg : g ∈ (ofBuffer b).diagnostics c s)
    (hrule : g.rule = .value) :
    ∃ p ∈ (ofBuffer b).properties, ∃ v known, p.value? = some v ∧ v.span = g.span ∧
      c.find? ((ofBuffer b).name p) = some known ∧
      c.valueError? known ((ofBuffer b).logical g.span).trim = some g.message ∧
      ∀ a ∈ Step.results ((ofBuffer b).fixes c fs gs), g ∈ a.diagnostics →
        ∀ es, a.remedy = .edits es → ∃ range t, es = [⟨range, g.span, t⟩] ∧
          c.valueError? known t = none := by
  obtain ⟨-, -, f, hf, hplace⟩ := mem_diagnostics_iff.mp hg
  rw [hrule] at hf
  obtain ⟨p, hp, hmisfit⟩ := List.mem_filterMap.mp hf
  obtain ⟨v, known, message, hv, hknown, hmessage, rfl⟩ := exists_of_misfit? hmisfit
  obtain ⟨range, -, hg'⟩ := exists_of_place? hplace
  have hspan : g.span = v.span := congrArg Diagnostic.span hg'
  have hat := valueAt?_start hp hv
  rw [← hspan] at hat
  refine ⟨p, hp, v, known, hv, hspan.symm, hknown, ?_, fun a ha hfor es hes => ?_⟩
  · rw [hspan, hmessage, hg']
  · have ha := mem_fixesFor_of_mem_diagnostics ha hfor (by rw [hrule]; exact nofun)
    rw [fixesFor, Step.results_poll_cons, hrule] at ha
    obtain ⟨range, -, t, ⟨known', hknown', choice, hchoice, ht⟩, rfl⟩ :=
      (exists_of_mem_valueFixes hat ha).2 es hes
    obtain rfl := Option.some.inj (hknown.symm.trans hknown')
    exact ⟨range, t, rfl, Catalog.valueError?_eq_none_of_mem hchoice ht⟩

/-- A value of a hint that stands for another one, and a truth value in kebab case. For the first
there is one similar value, in one of its spellings, and for the second all values are on offer. -/
theorem offer_fits_alias : ∃ (b : Buffer) (c : Catalog) (g g' : Diagnostic),
    b.text = ['a', '=', 'd', 'e', '\n', 'b', '=', '1'] ∧
      (ofBuffer b).diagnostics c {} = [g, g'] ∧ g.rule = .value ∧ g'.rule = .value ∧
      (Step.results ((ofBuffer b).fixes c {} [g, g'])).map Action.remedy =
        [.edits [⟨g.range, g.span, ['d', 'e', 'v']⟩],
          .edits [⟨g'.range, g'.span, ['f', 'a', 'l', 's', 'e']⟩],
          .edits [⟨g'.range, g'.span, ['t', 'r', 'u', 'e']⟩]] ∧
      (∃ known, c.valueError? known ['d', 'e'] = some g.message ∧
        c.valueError? known ['d', 'e', 'v'] = none) ∧
      ∃ known, c.valueError? known ['1'] = some g'.message ∧
        c.valueError? known ['t', 'r', 'u', 'e'] = none := by
  let c : Catalog := ⟨[
      { name := ['a'], hintRef := some ['h'], converters := [.verbatim, .kebabCase] },
      { name := ['b'], type := some "boolean".toList, converters := [.kebabCase] }],
    [{ name := ['h'], handleAs := some ['k'] },
      { name := ['k'], choices := [{ value := ['D', 'E', 'V'] }, { value := ['O'] }] }]⟩
  let b : Buffer := ⟨"u", ['a', '=', 'd', 'e', '\n', 'b', '=', '1'], 1⟩
  let g : Diagnostic := ⟨⟨⟨0, 2⟩, ⟨0, 4⟩⟩, ⟨2, 4⟩, .error, .value,
    "Invalid enum value: 'de' is invalid for type String", some ['a']⟩
  let g' : Diagnostic := ⟨⟨⟨1, 2⟩, ⟨1, 3⟩⟩, ⟨7, 8⟩, .error, .value,
    "Type mismatch: boolean expected", some ['b']⟩
  let a : Action := ⟨"Did you mean 'dev'?", .similarValue, [g],
    .edits [⟨g.range, g.span, ['d', 'e', 'v']⟩]⟩
  let replace (t : Text) : Action := ⟨quoteName "Replace with" t ++ "?", .anyValue, [g'],
    .edits [⟨g'.range, g'.span, t⟩]⟩
  have hgs : (ofBuffer b).diagnostics c {} = [g, g'] := by decide
  have hactions : Step.results ((ofBuffer b).fixes c {} [g, g']) =
      [a, replace "false".toList, replace "true".toList] := by decide
  have hg : g ∈ (ofBuffer b).diagnostics c {} := hgs ▸ List.mem_cons_self
  have hg' : g' ∈ (ofBuffer b).diagnostics c {} :=
    hgs ▸ List.mem_cons_of_mem g List.mem_cons_self
  obtain ⟨-, -, -, known, -, -, -, herror, hoffer⟩ := offer_fits b c {} {} [g, g'] hg rfl
  obtain ⟨-, -, -, known', -, -, -, herror', hoffer'⟩ := offer_fits b c {} {} [g, g'] hg' rfl
  have hvalue : ((ofBuffer b).logical g.span).trim = ['d', 'e'] := by decide
  have hvalue' : ((ofBuffer b).logical g'.span).trim = ['1'] := by decide
  rw [hvalue] at herror
  rw [hvalue'] at herror'
  rw [hactions] at hoffer hoffer'
  obtain ⟨_, _, heq, hfits⟩ := hoffer a (by simp) List.mem_cons_self _ rfl
  obtain ⟨_, _, heq', hfits'⟩ := hoffer' (replace "true".toList) (by simp) List.mem_cons_self _ rfl
  obtain ⟨-, -, rfl⟩ := Edit.mk.inj (List.singleton_inj.mp heq)
  obtain ⟨-, -, rfl⟩ := Edit.mk.inj (List.singleton_inj.mp heq')
  refine ⟨b, c, g, g', rfl, hgs, rfl, rfl, ?_, ⟨known, herror, hfits⟩, known', herror', hfits'⟩
  rw [hactions]
  rfl

end Document

end DotProperties
