import DotProperties.Proofs.Catalog.Index

/-!
# Values that are listed and values that are admitted

A hint is followed in two ways. To list the values of a property, a hint that stands for another one
is replaced by that one (`Catalog.Lists`). To judge a value, both hints are asked. So whatever is
listed is admitted (`Catalog.admits_of_lists`), but a hint that has values of its own and stands for
another hint admits values that are not listed (`Catalog.exists_admitted_not_listed`). The two agree
for a property exactly if each spelling of a value of its own hint is a spelling of a value of the
other hint as well, or there is no other hint (`Catalog.admits_iff_lists_iff`).
-/

namespace DotProperties

theorem Choice.accepts_iff {choice : Choice} {t : Text} {converters : List Converter} :
    choice.accepts t converters = true ↔ t ∈ choice.spellings converters := by
  rw [accepts, List.contains_iff_mem]

/-- The spellings of the values of a hint. -/
def Hint.spellings (h : Hint) (converters : List Converter) : List Text :=
  h.choices.flatMap (·.spellings converters)

theorem Hint.isSome_find?_iff {h : Hint} {t : Text} {converters : List Converter} :
    (h.find? t converters).isSome = true ↔ t ∈ h.spellings converters := by
  rw [find?, List.find?_isSome, spellings, List.mem_flatMap]
  exact exists_congr fun choice => and_congr_right fun _ => Choice.accepts_iff

namespace Catalog

/-- One of the listed values of a property has `t` as a spelling. -/
def Lists (c : Catalog) (p : KnownProperty) (t : Text) : Prop :=
  ∃ choices, c.choices? p = some choices ∧
    ∃ choice ∈ choices, choice.accepts t p.converters = true

variable {c : Catalog} {p : KnownProperty} {h : Hint} {t : Text}

/-- What is listed are the values of the hint that the hint of a property stands for, or else of
that hint. -/
theorem lists_iff (hh : c.hintFor? p = some h) :
    c.Lists p t ↔ t ∈ ((c.target? h).getD h).spellings p.converters := by
  have hchoices : c.choices? p = some ((c.target? h).getD h).choices := by rw [choices?, hh]
  rw [Lists, hchoices, Hint.spellings, List.mem_flatMap]
  simp only [Option.some_inj, exists_eq_left', Choice.accepts_iff]

/-- What is admitted are the values of the hint of a property and of the hint that it stands for. -/
theorem admits_iff (hh : c.hintFor? p = some h) :
    c.admits p t = true ↔ t ∈ h.spellings p.converters ∨
      ∃ other, c.target? h = some other ∧ t ∈ other.spellings p.converters := by
  rw [admits, hh]
  simp only [Bool.or_eq_true, Option.any_eq_true, Hint.isSome_find?_iff]

theorem admits_of_lists (hh : c.hintFor? p = some h) (ht : c.Lists p t) :
    c.admits p t = true := by
  rw [lists_iff hh] at ht
  rw [admits_iff hh]
  cases htarget : c.target? h with
  | none =>
    rw [htarget] at ht
    exact Or.inl ht
  | some other =>
    rw [htarget] at ht
    exact Or.inr ⟨other, rfl, ht⟩

/-- For a property with a hint, what is listed is admitted. All that is admitted is listed exactly
if the hint stands for no other one, or has no spelling that the other one lacks. -/
theorem admits_iff_lists_iff (hh : c.hintFor? p = some h) :
    (∀ t, c.Lists p t → c.admits p t = true) ∧
      ((∀ t, c.admits p t = true ↔ c.Lists p t) ↔ ∀ other, c.target? h = some other →
        ∀ t ∈ h.spellings p.converters, t ∈ other.spellings p.converters) := by
  refine ⟨fun t => admits_of_lists hh, fun hagree other htarget t ht => ?_, fun hwithin t => ?_⟩
  · have hlisted := (hagree t).mp ((admits_iff hh).mpr (Or.inl ht))
    rwa [lists_iff hh, htarget] at hlisted
  · refine ⟨fun hadmits => ?_, admits_of_lists hh⟩
    rw [lists_iff hh]
    cases htarget : c.target? h with
    | none =>
      rcases (admits_iff hh).mp hadmits with hown | ⟨other, hother, -⟩
      · exact hown
      · exact nomatch htarget.symm.trans hother
    | some other =>
      rcases (admits_iff hh).mp hadmits with hown | ⟨other', hother, ht⟩
      · exact hwithin other htarget t hown
      · obtain rfl := Option.some.inj (htarget.symm.trans hother)
        exact ht

/-- A hint that is found by the type of a property and has a value of its own. It is a spelling of a
value of the hint that it stands for, in kebab case. -/
theorem admits_iff_lists_alias : ∃ (c : Catalog) (p : KnownProperty) (h : Hint),
    p ∈ c.properties ∧ c.hintFor? p = some h ∧ h.choices ≠ [] ∧ c.target? h ≠ none ∧
      ∀ t, c.admits p t = true ↔ c.Lists p t := by
  let p : KnownProperty := { name := ['p'], type := some ['T'], converters := [.kebabCase] }
  let h : Hint :=
    { name := ['T'], choices := [{ value := ['D', 'E', 'V'] }], handleAs := some ['g'] }
  let g : Hint := { name := ['g'], choices := [{ value := ['O'] }, { value := ['d', 'e', 'v'] }] }
  let c : Catalog := .ofEntries [p] [h, g]
  refine ⟨c, p, h, by decide, by decide, by decide, by decide, ?_⟩
  refine (admits_iff_lists_iff (h := h) (by decide)).2.mpr fun other hother => ?_
  obtain rfl : g = other := Option.some.inj hother
  decide

/-- The value of a hint that stands for another one is admitted, and it is not listed. -/
theorem exists_admitted_not_listed : ∃ (ps : List KnownProperty) (hs : List Hint)
    (p : KnownProperty) (h : Hint) (t : Text), p ∈ (ofEntries ps hs).properties ∧
      (ofEntries ps hs).hintFor? p = some h ∧ (ofEntries ps hs).admits p t = true ∧
      ¬(ofEntries ps hs).Lists p t := by
  let p : KnownProperty := { name := ['p'], hintRef := some ['h'] }
  let h : Hint := { name := ['h'], choices := [{ value := ['a'] }], handleAs := some ['g'] }
  let g : Hint := { name := ['g'], choices := [{ value := ['b'] }] }
  refine ⟨[p], [h, g], p, h, ['a'], by decide, by decide, by decide, ?_⟩
  rw [lists_iff (h := h) (by decide)]
  decide

end Catalog

end DotProperties
