import DotProperties.Proofs.Document.Keys
import DotProperties.Proofs.Document.Owners

/-!
# Names that are set more than once

The rule on duplicates counts names first and looks at properties then. The two passes together
compare every property with every other one (`Document.mem_repeatedNames_iff`) : a key is reported
if another property of the document has the same full name, unless that is empty. Two properties
are never mistaken for one, since their keys stand apart (`Tree.properties_apart`). Names are
logical, so it does not matter how a key is divided into lines.

All properties of a name are reported or none of them is. So a name that is reported at all is
reported at least twice (`Document.duplicates_reported`).
-/

namespace DotProperties

open Event

/-! ## Properties stand apart -/

theorem Item.pairwise_stop_lt_start {is : List Item} {lo hi : Nat}
    (hrow : Node.Row hi lo (is.map Item.node)) (hapart : is.IsChain Apart) :
    is.Pairwise fun i j => ∀ p, j = .property p → i.span.stop < p.span.start := by
  induction is generalizing lo with
  | nil => exact .nil
  | cons i is ih =>
    refine .cons (fun j hj p hp => ?_) (ih hrow.2.2 hapart.tail)
    subst hp
    obtain ⟨before, behind, rfl⟩ := List.append_of_mem hj
    have hbefore : ∀ i' ∈ i :: before, i'.span.stop < p.span.start := stop_lt_start hrow hapart
    exact hbefore i List.mem_cons_self

/-- The key of a property stops before that of the next one starts. -/
theorem Tree.properties_apart (t : Text) :
    (ofEvents (ofText t)).properties.Pairwise fun p q => p.key.stop < q.key.start := by
  have hrow := (fits_ofText t _ (mem_nodes_iff.mpr (Or.inl rfl))).children
  have hapart := Item.pairwise_stop_lt_start hrow (items_apart t)
  rw [properties, List.pairwise_filterMap]
  refine hapart.imp_of_mem ?_
  rintro (_ | p) (_ | q) hp hq hlt _ ⟨⟩ _ ⟨⟩
  obtain ⟨-, -, hrest⟩ := row_property (mem_properties_iff.mpr hp)
  obtain ⟨hstart, -, -⟩ := row_property (mem_properties_iff.mpr hq)
  exact Nat.lt_of_le_of_lt hrest.le (Nat.lt_of_lt_of_le (hlt q rfl) hstart)

theorem Tree.nodup_properties (t : Text) : (ofEvents (ofText t)).properties.Nodup := by
  refine (properties_apart t).imp_of_mem fun {p q} hp _ hlt => ?_
  rintro rfl
  obtain ⟨-, hordered, -⟩ := row_property hp
  exact absurd hordered (Nat.not_le_of_lt hlt)

/-! ## Counting names -/

/-- A name is counted twice if another element of the list has it. -/
theorem two_le_count_map_iff {α β : Type} [BEq β] [LawfulBEq β] {l : List α} (hl : l.Nodup)
    (f : α → β) {a : α} (ha : a ∈ l) :
    2 ≤ (l.map f).count (f a) ↔ ∃ a' ∈ l, a' ≠ a ∧ f a' = f a := by
  obtain ⟨before, behind, rfl⟩ := List.append_of_mem ha
  have hothers : 2 ≤ ((before ++ a :: behind).map f).count (f a) ↔
      f a ∈ before.map f ∨ f a ∈ behind.map f := by
    rw [List.map_append, List.map_cons, List.count_append, List.count_cons_self,
      ← List.one_le_count_iff, ← List.one_le_count_iff]
    omega
  rw [hothers, List.mem_map, List.mem_map]
  have hne : ∀ a', a' ∈ before ∨ a' ∈ behind → a' ≠ a := by
    rintro a' h rfl
    have hnew := (List.nodup_middle.mp hl).notMem
    exact hnew (List.mem_append.mpr h)
  constructor
  · rintro (⟨a', ha', hf⟩ | ⟨a', ha', hf⟩)
    · exact ⟨a', by simp [ha'], hne a' (.inl ha'), hf⟩
    · exact ⟨a', by simp [ha'], hne a' (.inr ha'), hf⟩
  · rintro ⟨a', ha', hdiffers, hf⟩
    rcases List.mem_append.mp ha' with h | h
    · exact .inl ⟨a', h, hf⟩
    · exact .inr ⟨a', (List.mem_cons.mp h).resolve_left hdiffers, hf⟩

namespace Document

/-- Another property of the document has the same full name, which is not empty. -/
def IsRepeated (d : Document) (p : Property) : Prop :=
  d.fullName p ≠ [] ∧ ∃ q ∈ d.properties, q ≠ p ∧ d.fullName q = d.fullName p

instance (d : Document) (p : Property) : Decidable (d.IsRepeated p) :=
  inferInstanceAs (Decidable (_ ∧ ∃ q ∈ d.properties, q ≠ p ∧ d.fullName q = d.fullName p))

variable {b : Buffer} {p q : Property}

theorem mem_repeatedNames_iff (hp : p ∈ (ofBuffer b).properties) :
    (ofBuffer b).fullName p ∈ (ofBuffer b).repeatedNames ↔
      ∃ q ∈ (ofBuffer b).properties, q ≠ p ∧ (ofBuffer b).fullName q = (ofBuffer b).fullName p := by
  rw [repeatedNames, List.mem_filter, List.mem_eraseDups, decide_eq_true_iff,
    and_iff_right (List.mem_map_of_mem hp)]
  exact two_le_count_map_iff (Tree.nodup_properties b.text) (ofBuffer b).fullName hp

/-- A property and any other one of the same full name are repeated together. -/
theorem IsRepeated.of_eq {d : Document} (h : d.IsRepeated p) (hp : p ∈ d.properties)
    (hq : d.fullName q = d.fullName p) : d.IsRepeated q := by
  rcases eq_or_ne q p with rfl | hne
  · exact h
  · exact ⟨hq ▸ h.1, p, hp, hne.symm, hq.symm⟩

/-- Of the properties of one name, not exactly one is repeated. -/
theorem countP_isRepeated_ne_one (d : Document) (name : Text) :
    (d.properties.filter fun p => d.IsRepeated p).countP (fun p => d.fullName p == name) ≠ 1 := by
  intro hone
  rw [List.countP_eq_length_filter] at hone
  obtain ⟨p, hp⟩ := List.length_eq_one_iff.mp hone
  have hmem (q : Property) :
      q ∈ d.properties ∧ d.fullName q = name ∧ d.IsRepeated q ↔ q = p := by
    have hiff := List.mem_singleton (a := q) (b := p)
    rw [← hp] at hiff
    simpa using hiff
  obtain ⟨hin, rfl, hrepeated⟩ := (hmem p).mpr rfl
  have ⟨q, hq, hne, hname⟩ := hrepeated.2
  exact hne ((hmem q).mp ⟨hq, hname, hrepeated.of_eq hin hname⟩)

/-- What the rule finds where nothing is left alone. -/
theorem duplicateFindings_eq (b : Buffer) : (ofBuffer b).duplicateFindings [] =
    ((ofBuffer b).properties.filter fun p => (ofBuffer b).IsRepeated p).map fun p =>
      ⟨p.key, quoteName "Duplicate property" ((ofBuffer b).fullName p),
        some ((ofBuffer b).fullName p)⟩ := by
  rw [duplicateFindings, ← List.filterMap_eq_map', List.filterMap_filter]
  refine List.filterMap_congr fun p hp => ?_
  have hrepeated : (ofBuffer b).IsRepeated p ↔ ¬((ofBuffer b).fullName p).isEmpty = true ∧
      (ofBuffer b).repeatedNames.contains ((ofBuffer b).fullName p) = true := by
    rw [IsRepeated, ← mem_repeatedNames_iff hp, List.isEmpty_iff, List.contains_iff_mem]
  rw [duplicateKey?, isExcluded_nil, Bool.or_false]
  by_cases h : (ofBuffer b).IsRepeated p
  · obtain ⟨hname, hmem⟩ := hrepeated.mp h
    rw [if_pos (decide_eq_true h), Bool.eq_false_iff.mpr hname, hmem]
    rfl
  · have hskip : (((ofBuffer b).fullName p).isEmpty ||
        !(ofBuffer b).repeatedNames.contains ((ofBuffer b).fullName p)) = true := by
      rw [hrepeated, not_and_or, not_not, Bool.not_eq_true] at h
      rwa [Bool.or_eq_true, Bool.not_eq_true']
    rw [if_pos hskip, if_neg (by simpa using h)]

/-- What the rule reports where nothing is left alone. -/
theorem map_duplicate_diagnostics (b : Buffer) (c : Catalog) {s : Settings} (h : s.enabled = true)
    (hrule : (s.rule .duplicate).isEnabled = true) (hnone : (s.rule .duplicate).excluded = []) :
    (((ofBuffer b).diagnostics c s).filter (·.rule == .duplicate)).map
        (fun g => (g.span, g.propertyName)) =
      ((ofBuffer b).properties.filter fun p => (ofBuffer b).IsRepeated p).map
        (fun p => (p.key, some ((ofBuffer b).fullName p))) := by
  have hexclusions : (s.rule .duplicate).exclusions = [] := by
    rw [RuleSettings.exclusions, hnone]
    rfl
  have hmap := map_rule_diagnostics b c h hrule
  rw [hexclusions, findings, duplicateFindings_eq] at hmap
  have hpairs := congrArg (List.map fun f : Finding => (f.span, f.propertyName)) hmap
  rw [List.map_map, List.map_map] at hpairs
  exact hpairs

/-- A name is reported at every property that has it, or nowhere. A validation that runs to its end,
with the rule on and nothing left alone, reports the keys of the properties whose full name is not
empty and is that of another property too, each key once and in the order of the document. No two
of the properties are the same, and no name is reported exactly once. -/
theorem duplicates_reported (b : Buffer) (c : Catalog) {s : Settings} (henabled : s.enabled = true)
    (hrule : (s.rule .duplicate).isEnabled = true) (hnone : (s.rule .duplicate).excluded = []) :
    (ofBuffer b).properties.Nodup ∧ ∃ gs, (∀ gs', (ofBuffer b).Validates c s gs' ↔ gs' = gs) ∧
      (gs.filter (·.rule == .duplicate)).map (fun g => (g.span, g.propertyName)) =
        ((ofBuffer b).properties.filter fun p => (ofBuffer b).IsRepeated p).map
          (fun p => (p.key, some ((ofBuffer b).fullName p))) ∧
      (gs.filter (·.rule == .duplicate)).Pairwise (fun g g' => g.span.stop < g'.span.start) ∧
      ∀ name, (gs.filter (·.rule == .duplicate)).countP (·.propertyName == some name) ≠ 1 := by
  have hmap := map_duplicate_diagnostics b c henabled hrule hnone
  refine ⟨Tree.nodup_properties b.text, _, fun gs' => validates_iff, hmap, ?_, fun name => ?_⟩
  · have hapart := (Tree.properties_apart b.text).filter fun p => (ofBuffer b).IsRepeated p
    rw [← List.pairwise_map (f := fun g : Diagnostic => (g.span, g.propertyName))
      (R := fun x y => x.1.stop < y.1.start), hmap, List.pairwise_map]
    exact hapart
  · have hcount := congrArg (List.countP fun x => x.2 == some name) hmap
    rw [List.countP_map, List.countP_map] at hcount
    exact fun hone => countP_isRepeated_ne_one (ofBuffer b) name (hcount.symm.trans hone)

/-- A name that is set three times, once on two lines, and names that are set once, with and without
a profile. Keys without a name are left out. -/
theorem duplicates_reported_continued :
    ∃ (b : Buffer) (gs : List Diagnostic),
      b.text = "a.b=1\n%d.a.b\n=\na.\\\n b=2\n=\na.b".toList ∧
      (({} : Settings).rule .duplicate).excluded = [] ∧ (ofBuffer b).Validates ⟨[], []⟩ {} gs ∧
      (gs.filter (·.rule == .duplicate)).map (fun g => (g.span, g.propertyName)) =
        [(⟨0, 3⟩, some ['a', '.', 'b']), (⟨15, 21⟩, some ['a', '.', 'b']),
          (⟨26, 29⟩, some ['a', '.', 'b'])] ∧
      (gs.filter (·.rule == .duplicate)).countP (·.propertyName == some ['a', '.', 'b']) ≠ 1 := by
  let b : Buffer := ⟨"u", "a.b=1\n%d.a.b\n=\na.\\\n b=2\n=\na.b".toList, 1⟩
  obtain ⟨-, gs, hgs, hmap, -, hcount⟩ := duplicates_reported b ⟨[], []⟩ (s := {}) rfl rfl rfl
  exact ⟨b, gs, rfl, rfl, (hgs gs).mpr rfl, hmap.trans (by decide +kernel), hcount _⟩

end Document

end DotProperties
