import Mathlib.Data.List.Nodup
import DotProperties.Proofs.Catalog.Index
import DotProperties.Proofs.Document.Ranges
import DotProperties.Proofs.Document.Rules

/-!
# Keys, values and what is missing

Whether a key is set is asked in three ways : of the set of keys, of the lookup of a value, and of
the rule on required properties. The set of keys drops blank values before it looks at names, the
lookup looks at names first, and the rule asks the set. All three are about the properties that set
the key (`Document.Sets`), so they agree (`Document.lookup?_agrees`).

The lookup gives the value of the first property that sets the key. An earlier property of the same
name whose value is blank does not count.
-/

namespace DotProperties

/-! ## Names of a catalog -/

/-- The names of the entries that are kept differ from each other and from those seen before. -/
theorem nodup_map_firstByName {α : Type} (name : α → Text) (seen : List Text) (l : List α) :
    ((firstByName name seen l).map name).Nodup ∧
      ∀ a ∈ firstByName name seen l, name a ∉ seen := by
  induction l generalizing seen with
  | nil => exact ⟨List.nodup_nil, nofun⟩
  | cons a l ih =>
    by_cases ha : name a = [] ∨ name a ∈ seen
    · rw [firstByName_cons_of_dropped ha]
      exact ih seen
    · obtain ⟨hnodup, hnew⟩ := ih (name a :: seen)
      rw [firstByName_cons_of_kept ha, List.map_cons, List.nodup_cons, List.forall_mem_cons]
      refine ⟨⟨?_, hnodup⟩, fun hseen => ha (.inr hseen), fun x hx hseen => ?_⟩
      · intro hmem
        obtain ⟨x, hx, hname⟩ := List.mem_map.mp hmem
        exact hnew x hx (hname ▸ List.mem_cons_self)
      · exact hnew x hx (List.mem_cons_of_mem _ hseen)

theorem Catalog.nodup_filter_properties (ps : List KnownProperty) (hs : List Hint)
    (test : KnownProperty → Bool) :
    (((ofEntries ps hs).properties.filter test).map KnownProperty.name).Nodup :=
  (nodup_map_firstByName KnownProperty.name [] ps).1.sublist (List.filter_sublist.map _)

namespace Document

variable {d : Document} {p : Property} {key v : Text}

/-! ## Properties that set a key -/

/-- The property sets the key to the value, which is not blank. -/
def Sets (d : Document) (p : Property) (key v : Text) : Prop :=
  d.fullName p = key ∧ d.value? p = some v ∧ ∃ c ∈ v, isBlank c = false

theorem sets_iff : d.Sets p key v ↔ d.fullName p = key ∧ d.setValue? p = some v := by
  rw [Sets, setValue?, Option.filter_eq_some_iff, Text.allBlank]
  simp

theorem hasKey_iff : d.hasKey key = true ↔ ∃ p ∈ d.properties, ∃ v, d.Sets p key v := by
  simp only [hasKey, keys, List.contains_iff_mem, List.mem_eraseDups, List.mem_map,
    List.mem_filter, sets_iff, Option.isSome_iff_exists]
  constructor
  · rintro ⟨p, ⟨hp, v, hv⟩, hname⟩
    exact ⟨p, hp, v, hname, hv⟩
  · rintro ⟨p, hp, v, hname, hv⟩
    exact ⟨p, ⟨hp, v, hv⟩, hname⟩

/-- The lookup goes over all properties and passes by those of other names. -/
theorem lookup?_eq_findSome? : d.lookup? key =
    d.properties.findSome? fun p => if d.fullName p = key then d.setValue? p else none := by
  rw [lookup?]
  induction d.properties with
  | nil => rfl
  | cons p ps ih =>
    rw [List.filter_cons, List.findSome?_cons]
    by_cases hname : d.fullName p = key
    · rw [if_pos (beq_iff_eq.mpr hname), if_pos hname, List.findSome?_cons, ih]
    · rw [if_neg (mt beq_iff_eq.mp hname), if_neg hname, ih]

theorem isSome_lookup?_iff : (d.lookup? key).isSome = true ↔
    ∃ p ∈ d.properties, ∃ v, d.Sets p key v := by
  rw [lookup?_eq_findSome?, List.findSome?_isSome_iff]
  refine exists_congr fun p => and_congr_right fun _ => ?_
  simp only [Option.isSome_iff_exists, Option.ite_none_right_eq_some, sets_iff]

theorem lookup?_eq_some_iff : d.lookup? key = some v ↔
    ∃ before p after, d.properties = before ++ p :: after ∧ d.Sets p key v ∧
      ∀ q ∈ before, ∀ w, ¬d.Sets q key w := by
  rw [lookup?_eq_findSome?, List.findSome?_eq_some_iff]
  simp only [Option.eq_none_iff_forall_ne_some, ne_eq, Option.ite_none_right_eq_some, sets_iff]

/-! ## Required properties -/

/-- The document has to set the property and does not. -/
def Lacks (d : Document) (globs : List NameGlob) (k : KnownProperty) : Prop :=
  k.required = true ∧ k.isPattern = false ∧ NameGlob.anyMatch globs k.name = false ∧
    d.lookup? k.name = none

instance (globs : List NameGlob) (k : KnownProperty) : Decidable (d.Lacks globs k) :=
  inferInstanceAs (Decidable (_ ∧ _ ∧ _ ∧ _))

theorem missing_eq (c : Catalog) (globs : List NameGlob) : d.missing c globs =
    (c.properties.filter fun k => d.Lacks globs k).map KnownProperty.name := by
  rw [missing]
  refine congrArg _ (List.filter_congr fun k _ => ?_)
  have hset : d.keys.contains k.name = (d.lookup? k.name).isSome :=
    Bool.eq_iff_iff.mpr (hasKey_iff.trans isSome_lookup?_iff.symm)
  rw [Bool.eq_iff_iff, decide_eq_true_iff, Lacks, hset]
  simp [and_assoc]

/-- The diagnostics of a rule among all others. -/
theorem filter_rule_diagnostics {c : Catalog} {s : Settings} (h : s.enabled = true) (r : Rule) :
    (d.diagnostics c s).filter (·.rule == r) = d.ruleDiagnostics c s r := by
  have hrule (r' : Rule) : (d.ruleDiagnostics c s r').filter (·.rule == r) =
      if r' = r then d.ruleDiagnostics c s r else [] := by
    split_ifs with hr
    · subst hr
      exact List.filter_eq_self.mpr fun g hg => beq_iff_eq.mpr (of_mem_ruleDiagnostics hg).1
    · refine List.filter_eq_nil_iff.mpr fun g hg => ?_
      rw [(of_mem_ruleDiagnostics hg).1, beq_iff_eq]
      exact hr
  rw [diagnostics_eq_flatMap h, List.filter_flatMap, List.flatMap_congr fun r' _ => hrule r']
  cases r <;> simp [Rule.all]

/-- A rule reports all that it finds, in that order. -/
theorem map_rule_diagnostics (b : Buffer) (c : Catalog) {s : Settings} (h : s.enabled = true)
    {r : Rule} (hr : (s.rule r).isEnabled = true) :
    (((ofBuffer b).diagnostics c s).filter (·.rule == r)).map
        (fun g => (⟨g.span, g.message, g.propertyName⟩ : Finding)) =
      (ofBuffer b).findings c (s.rule r).exclusions r := by
  rw [filter_rule_diagnostics h, ruleDiagnostics_of_ne_off (bne_iff_ne.mp hr), List.map_filterMap]
  -- Each finding has a place.
  refine (List.filterMap_congr fun f hf => ?_).trans List.filterMap_some
  obtain ⟨range, -, hplace⟩ := exists_place_of_bounds (bounds_of_mem_findings hf) r
    (s.rule r).severity
  rw [hplace]
  rfl

/-- What the rule on required properties reports, in the order of the catalog. -/
theorem map_required_diagnostics (b : Buffer) (c : Catalog) {s : Settings}
    (h : s.enabled = true) (hrule : (s.rule .required).isEnabled = true) :
    (((ofBuffer b).diagnostics c s).filter (·.rule == .required)).map
        (fun g => (g.propertyName, g.message)) =
      (c.properties.filter fun k => (ofBuffer b).Lacks (s.rule .required).exclusions k).map
        fun k => (some k.name, quoteName "Missing required property" k.name) := by
  have hmap := map_rule_diagnostics b c h hrule
  rw [findings, requiredFindings, missing_eq] at hmap
  have hpairs := congrArg (List.map fun f : Finding => (f.propertyName, f.message)) hmap
  rw [List.map_map, List.map_map, List.map_map] at hpairs
  exact hpairs

/-- The set of keys, the lookup and the rule on required properties agree. A key is in the set if
it has a value, and its value is that of the first property, in document order, that sets it. A
validation that runs to its end with the rule on reports, in the order of the catalog and once each,
the required properties without a value that are no patterns and are not left alone. -/
theorem lookup?_agrees (b : Buffer) :
    (∀ key, (ofBuffer b).hasKey key = true ↔ ((ofBuffer b).lookup? key).isSome = true) ∧
    (∀ key v, (ofBuffer b).lookup? key = some v ↔ ∃ before p after,
      (ofBuffer b).properties = before ++ p :: after ∧ (ofBuffer b).Sets p key v ∧
        ∀ q ∈ before, ∀ w, ¬(ofBuffer b).Sets q key w) ∧
    ∀ (ps : List KnownProperty) (hs : List Hint) (s : Settings), s.enabled = true →
      (s.rule .required).isEnabled = true → ∃ gs,
        (∀ gs', (ofBuffer b).Validates (.ofEntries ps hs) s gs' ↔ gs' = gs) ∧
        (gs.filter (·.rule == .required)).map (fun g => (g.propertyName, g.message)) =
          ((Catalog.ofEntries ps hs).properties.filter fun k =>
            (ofBuffer b).Lacks (s.rule .required).exclusions k).map
              (fun k => (some k.name, quoteName "Missing required property" k.name)) ∧
        ((gs.filter (·.rule == .required)).map Diagnostic.propertyName).Nodup := by
  refine ⟨fun key => hasKey_iff.trans isSome_lookup?_iff.symm, fun key v => lookup?_eq_some_iff,
    fun ps hs s henabled hrule => ?_⟩
  have hmap := map_required_diagnostics b (.ofEntries ps hs) henabled hrule
  refine ⟨_, fun gs' => validates_iff, hmap, ?_⟩
  have hnames := congrArg (List.map Prod.fst) hmap
  have hlacking := Catalog.nodup_filter_properties ps hs fun k =>
    (ofBuffer b).Lacks (s.rule .required).exclusions k
  have hmapped := hlacking.map fun _ _ => Option.some.inj
  rw [List.map_map] at hnames hmapped
  rw [List.map_map] at hnames
  exact hnames ▸ hmapped

/-- A blank value before another one, a name that is set under a profile only, and a pattern. Of the
names in the catalog one is missing, which is there twice. -/
theorem lookup?_agrees_profile :
    ∃ (d : Document) (c : Catalog) (gs : List Diagnostic),
      d = ofBuffer ⟨"u", "a=\na=x\n%d.b=y".toList, 1⟩ ∧
      c.properties.map KnownProperty.name = [['b'], ['a'], ['[', '*', ']']] ∧
      d.hasKey ['a'] = true ∧ (d.lookup? ['a']).isSome = true ∧ d.Validates c {} gs ∧
      (gs.filter (·.rule == .required)).map (fun g => (g.propertyName, g.message)) =
        [(some ['b'], "Missing required property 'b'")] := by
  let b : Buffer := ⟨"u", "a=\na=x\n%d.b=y".toList, 1⟩
  let ps : List KnownProperty := [{ name := ['b'], required := true },
    { name := ['a'], required := true }, { name := ['b'], required := true },
    { name := ['[', '*', ']'], required := true }]
  obtain ⟨hkeys, -, hrequired⟩ := lookup?_agrees b
  obtain ⟨gs, hgs, hmap, -⟩ := hrequired ps [] {} rfl rfl
  have hkey : (ofBuffer b).hasKey ['a'] = true := by decide +kernel
  exact ⟨ofBuffer b, .ofEntries ps [], gs, rfl, by decide, hkey, (hkeys ['a']).mp hkey,
    (hgs gs).mpr rfl, hmap.trans (by decide +kernel)⟩

end Document

end DotProperties
