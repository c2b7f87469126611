import Mathlib.Data.List.DropRight
import DotProperties.Fix
import DotProperties.Proofs.Cancellation
import DotProperties.Proofs.Document.Order
import DotProperties.Proofs.Text.Lines

/-!
# Diagnostics and the actions on them

A diagnostic is a finding of its rule (`Document.exists_finding`) : on a key that has a name, on a
value that is not empty, or on a name that the catalog requires. An action looks up the key or
value by the offset at which the diagnostic starts, and finds the one that it is about, since items
stand apart (`Document.keyAt?_start`, `Document.valueAt?_start`).

So an action that edits the document for one diagnostic writes a suggestion of the catalog in the
place of that key or value (`Document.exists_correction`). The action for all required properties
exists whatever the document is, and writes behind its content (`Document.exists_addRequired?`).
-/

namespace DotProperties

open Event

/-! ## Lookup -/

theorem Span.touches_iff {s : Span} {o : Nat} : s.touches o = true ↔ s.start ≤ o ∧ o ≤ s.stop := by
  simp [touches]

theorem firstTouching_append {α : Type} {span : α → Span} {o : Nat} {xs : List α}
    (h : ∀ y ∈ xs, (span y).touches o = false) {x : α} (hx : (span x).touches o = true)
    (ys : List α) (k : Nat) :
    firstTouching span o k (xs ++ x :: ys) = some (x, k + xs.length) := by
  induction xs generalizing k with
  | nil => simp [firstTouching, hx]
  | cons y xs ih =>
    obtain ⟨hy, hxs⟩ := List.forall_mem_cons.mp h
    rw [List.cons_append, firstTouching, if_neg (by simp [hy]), ih hxs, List.length_cons]
    congr 2
    omega

/-- What is found is the first that touches the offset. -/
theorem exists_of_firstTouching {α : Type} {span : α → Span} {o k i : Nat} {xs : List α} {x : α}
    (h : firstTouching span o k xs = some (x, i)) :
    ∃ ys zs, xs = ys ++ x :: zs ∧ i = k + ys.length ∧ (∀ y ∈ ys, (span y).touches o = false) ∧
      (span x).touches o = true := by
  induction xs generalizing k with
  | nil => exact nomatch h
  | cons y xs ih =>
    rw [firstTouching] at h
    split_ifs at h with htouches
    · obtain ⟨rfl, rfl⟩ := Prod.mk.inj (Option.some.inj h)
      exact ⟨[], xs, rfl, rfl, nofun, htouches⟩
    · obtain ⟨ys, zs, rfl, rfl, hys, hx⟩ := ih h
      refine ⟨y :: ys, zs, rfl, ?_, List.forall_mem_cons.mpr ⟨?_, hys⟩, hx⟩
      · rw [List.length_cons]
        omega
      · exact Bool.eq_false_iff.mpr htouches

theorem firstTouching_eq_none_iff {α : Type} {span : α → Span} {o k : Nat} {xs : List α} :
    firstTouching span o k xs = none ↔ ∀ x ∈ xs, (span x).touches o = false := by
  constructor
  · induction xs generalizing k with
    | nil => exact fun _ => nofun
    | cons y xs ih =>
      intro h
      rw [firstTouching] at h
      split_ifs at h with htouches
      exact List.forall_mem_cons.mpr ⟨Bool.eq_false_iff.mpr htouches, ih h⟩
  · intro h
    cases hfound : firstTouching span o k xs with
    | none => rfl
    | some x =>
      obtain ⟨ys, zs, rfl, -, -, hx⟩ := exists_of_firstTouching hfound
      exact absurd hx (by simp [h x.1])

theorem Item.span_node (i : Item) : i.node.span = i.span := by cases i <;> rfl

/-- The items before a property stop before it. -/
theorem Item.stop_lt_start {is is' : List Item} {p : Property} {lo hi : Nat}
    (hrow : Node.Row hi lo ((is ++ .property p :: is').map Item.node))
    (hapart : (is ++ .property p :: is').IsChain Apart) : ∀ i ∈ is, i.span.stop < p.span.start := by
  induction is generalizing lo with
  | nil => exact nofun
  | cons i is ih =>
    obtain ⟨-, -, hrest⟩ := hrow
    have hrest' := ih hrest hapart.tail
    refine List.forall_mem_cons.mpr ⟨?_, hrest'⟩
    cases is with
    | nil => exact (List.isChain_cons_cons.mp hapart).1
    | cons j is =>
      obtain ⟨hle, hordered, -⟩ := hrest
      rw [span_node, span_node] at hle
      rw [span_node] at hordered
      exact Nat.lt_of_le_of_lt (Nat.le_trans hle hordered) (hrest' j List.mem_cons_self)

theorem Tree.mem_properties_iff {t : Tree} {p : Property} :
    p ∈ t.properties ↔ .property p ∈ t.items := by
  refine List.mem_filterMap.trans ⟨?_, fun h => ⟨_, h, rfl⟩⟩
  rintro ⟨_ | q, hi, hq⟩
  · exact nomatch hq
  · obtain rfl := Option.some.inj hq
    exact hi

/-- The parts of a property lie in it, one behind the other. -/
theorem Tree.row_property {t : Text} {p : Property}
    (hp : p ∈ (Tree.ofEvents (ofText t)).properties) :
    Node.Row p.span.stop p.span.start (Node.property p).children :=
  (fits_ofText t (.property p)
    (mem_nodes_iff.mpr (Or.inr (Or.inl ⟨_, mem_properties_iff.mp hp, rfl⟩)))).children

/-- The first item that touches an offset answers for it. -/
theorem Tree.find_of_items {t : Tree} {o : Nat} {is is' : List Item} {i : Item}
    (hitems : t.items = is ++ i :: is') (hbefore : ∀ j ∈ is, j.span.touches o = false)
    (htouches : i.span.touches o = true) :
    t.find o = (is.length :: (Node.findInItem i o).1, (Node.findInItem i o).2) := by
  rw [find, Node.find, hitems, firstTouching_append hbefore htouches, Nat.zero_add]

/-- A property answers for the offsets from its start up to its end. -/
theorem Tree.find_property {t : Text} {p : Property}
    (hp : p ∈ (Tree.ofEvents (ofText t)).properties) {o : Nat} (hstart : p.span.start ≤ o)
    (hstop : o ≤ p.span.stop) :
    ∃ i, (Tree.ofEvents (ofText t)).items[i]? = some (.property p) ∧
      (Tree.ofEvents (ofText t)).find o =
        (i :: (Node.findInProperty p o).1, (Node.findInProperty p o).2) := by
  have hfits := fits_ofText t _ (mem_nodes_iff.mpr (Or.inl rfl))
  have hapart := items_apart t
  obtain ⟨is, is', hitems⟩ := List.append_of_mem (mem_properties_iff.mp hp)
  have hrow := hfits.children
  rw [Node.children, hitems] at hrow
  rw [hitems] at hapart
  have hbefore : ∀ i ∈ is, i.span.touches o = false := by
    intro i hi
    have hlt := Item.stop_lt_start hrow hapart i hi
    refine Bool.eq_false_iff.mpr fun htouches => ?_
    have hle := (Span.touches_iff.mp htouches).2
    omega
  have htouches : (Item.property p).span.touches o = true :=
    Span.touches_iff.mpr ⟨hstart, hstop⟩
  refine ⟨is.length, by rw [hitems]; simp, ?_⟩
  exact find_of_items hitems hbefore htouches

namespace Document

variable {b : Buffer} {p : Property} (hp : p ∈ (ofBuffer b).properties)
include hp

/-- At the start of a key stands the key. -/
theorem exists_find_key : ∃ i, (ofBuffer b).tree.items[i]? = some (.property p) ∧
    (ofBuffer b).tree.find p.key.start = ([i, 0], .key p.key) := by
  obtain ⟨hstart, hkey, hrest⟩ := Tree.row_property hp
  obtain ⟨i, hi, hfind⟩ := Tree.find_property hp (o := p.key.start) hstart
    (Nat.le_trans hkey hrest.le)
  have hin : Node.findInProperty p p.key.start = ([0], .key p.key) := if_pos hkey
  rw [hin] at hfind
  exact ⟨i, hi, hfind⟩

theorem keyAt?_start : (ofBuffer b).keyAt? p.key.start = some p := by
  obtain ⟨i, hitem, hfound⟩ := exists_find_key hp
  simp [keyAt?, hfound, hitem, Item.property?]

/-- At the start of a value stands the value or a fragment of it. -/
theorem exists_find_value {v : Value} (hv : p.value? = some v) :
    ∃ i, (ofBuffer b).tree.items[i]? = some (.property p) ∧
      ((ofBuffer b).tree.find v.span.start = ([i, 2], .value v) ∨
        ∃ k f, f ∈ v.fragments ∧
          (ofBuffer b).tree.find v.span.start = ([i, 2, k], .fragment f)) := by
  obtain ⟨a, ha, hav⟩ := Option.bind_eq_some_iff.mp hv
  obtain ⟨hstart, hkey, hassign, hsingle, hvalue, hordered, hlast⟩ :
      p.span.start ≤ p.key.start ∧ p.key.start ≤ p.key.stop ∧ p.key.stop ≤ a.offset ∧
        a.offset ≤ a.offset + 1 ∧ a.offset + 1 ≤ v.span.start ∧ v.span.start ≤ v.span.stop ∧
          v.span.stop ≤ p.span.stop := by
    have hrow := Tree.row_property hp
    rw [Node.children, ha] at hrow
    simpa [Assignment.nodes, hav, Node.Row, Node.span, Assignment.span, Span.single] using hrow
  obtain ⟨i, hi, hfind⟩ := Tree.find_property hp (o := v.span.start) (by omega) (by omega)
  have hin : Node.findInProperty p v.span.start =
      (2 :: (Node.findInValue v v.span.start).1, (Node.findInValue v v.span.start).2) := by
    rw [Node.findInProperty, if_neg (by omega), ha]
    simp [hav]
  rw [hin, Node.findInValue] at hfind
  refine ⟨i, hi, ?_⟩
  cases hfragment : firstTouching Fragment.span v.span.start 0 v.fragments with
  | none =>
    rw [hfragment] at hfind
    exact Or.inl hfind
  | some found =>
    rw [hfragment] at hfind
    obtain ⟨fs, fs', hfragments, -⟩ := exists_of_firstTouching hfragment
    exact Or.inr ⟨found.2, found.1, by simp [hfragments], hfind⟩

theorem valueAt?_start {v : Value} (hv : p.value? = some v) :
    (ofBuffer b).valueAt? v.span.start = some (p, v) := by
  obtain ⟨i, hitem, hfound | ⟨k, f, -, hfound⟩⟩ := exists_find_value hp hv <;>
    simp [valueAt?, hfound, hitem, Item.property?, hv]

end Document

/-! ## What diagnostics are about -/

/-- Where the key or the value of a property stands. -/
def Property.part? (p : Property) : Construct → Option Span
  | .key => some p.key
  | .value => p.value?.map Value.span
  | _ => none

/-- The part of a property that a rule is about. -/
def Rule.part : Rule → Construct
  | .value => .value
  | _ => .key

theorem Step.results_flatMap {α β : Type} (l : List α) (f : α → List (Step β)) :
    results (l.flatMap f) = l.flatMap fun x => results (f x) := List.filterMap_flatMap

namespace Document

variable {d : Document} {c : Catalog} {g : Diagnostic}

/-- A diagnostic has all that its finding has. -/
theorem exists_of_place? {r : Rule} {severity : Severity} {f : Finding}
    (h : d.place? r severity f = some g) : ∃ range, d.buffer.rangeOf f.span = .ok range ∧
      g = ⟨range, f.span, severity, r, f.message, f.propertyName⟩ := by
  rw [place?] at h
  split at h
  · rename_i range hrange
    exact ⟨range, hrange, (Option.some.inj h).symm⟩
  · exact nomatch h

theorem eq_of_place? {r : Rule} {severity : Severity} {f : Finding}
    (h : d.place? r severity f = some g) :
    d.buffer.rangeOf f.span = .ok g.range ∧ g.rule = r ∧ g.span = f.span ∧
      g.propertyName = f.propertyName := by
  obtain ⟨range, hrange, rfl⟩ := exists_of_place? h
  exact ⟨hrange, rfl, rfl, rfl⟩

/-- The diagnostics are the findings of the rules that are checked, in their places. -/
theorem mem_diagnostics_iff {s : Settings} : g ∈ d.diagnostics c s ↔
    s.enabled = true ∧ (s.rule g.rule).isEnabled = true ∧
      ∃ f ∈ d.findings c (s.rule g.rule).exclusions g.rule,
        d.place? g.rule (s.rule g.rule).severity f = some g := by
  have hrule (r : Rule) : g ∈ d.ruleDiagnostics c s r ↔ (s.rule r).isEnabled = true ∧
      ∃ f ∈ d.findings c (s.rule r).exclusions r, d.place? r (s.rule r).severity f = some g := by
    rw [ruleDiagnostics]
    split_ifs with henabled
    · exact List.mem_filterMap.trans (iff_and_self.mpr fun _ => henabled)
    · exact iff_of_false nofun fun h => henabled h.1
  rw [diagnostics, validation]
  split_ifs with henabled
  · rw [Step.results_flatMap]
    simp only [Step.results_poll_cons, Step.results_map_yield, List.mem_flatMap, hrule]
    constructor
    · rintro ⟨r, -, hr, f, hf, hplace⟩
      obtain ⟨-, rfl, -⟩ := eq_of_place? hplace
      exact ⟨henabled, hr, f, hf, hplace⟩
    · rintro ⟨-, h⟩
      exact ⟨g.rule, by cases g.rule <;> decide, h⟩
  · exact iff_of_false nofun fun h => henabled h.1

/-- A diagnostic is a finding of its rule. -/
theorem exists_finding {s : Settings} (h : g ∈ d.diagnostics c s) :
    ∃ f ∈ d.findings c (s.rule g.rule).exclusions g.rule,
      g.span = f.span ∧ g.propertyName = f.propertyName := by
  obtain ⟨-, -, f, hf, hplace⟩ := mem_diagnostics_iff.mp h
  exact ⟨f, hf, (eq_of_place? hplace).2.2⟩

/-- The rule on unknown keys finds the keys that have a name, one that is neither known nor left
alone. -/
theorem mem_unknownFindings_iff {globs : List NameGlob} {f : Finding} :
    f ∈ d.unknownFindings c globs ↔ ∃ p ∈ d.properties, d.name p ≠ [] ∧
      c.find? (d.name p) = none ∧ d.isExcluded globs p = false ∧
        f = ⟨p.key, quoteName "Unknown property" (d.name p), some (d.name p)⟩ := by
  refine List.mem_filterMap.trans (exists_congr fun p => and_congr_right fun _ => ?_)
  rw [unknownKey?, Option.ite_none_left_eq_some, Option.some_inj, eq_comm (b := f)]
  simp only [Bool.or_eq_true, List.isEmpty_iff, Option.isSome_iff_ne_none, not_or, not_not,
    Bool.not_eq_true, and_assoc, ne_eq]

/-- The rule on values finds values that are not empty, of properties that have a name. -/
theorem exists_of_mem_valueFindings {globs : List NameGlob} {f : Finding}
    (h : f ∈ d.valueFindings c globs) : ∃ p ∈ d.properties, ∃ v, p.value? = some v ∧
      d.raw v.span ≠ [] ∧ d.name p ≠ [] ∧ f.span = v.span ∧
        f.propertyName = some (d.name p) := by
  obtain ⟨p, hp, hvalue⟩ := List.mem_filterMap.mp h
  obtain ⟨v, hv, hvalue⟩ := Option.bind_eq_some_iff.mp hvalue
  obtain ⟨hcond, hvalue⟩ := Option.ite_none_left_eq_some.mp hvalue
  obtain ⟨known, hknown, hvalue⟩ := Option.bind_eq_some_iff.mp hvalue
  obtain ⟨-, hvalue⟩ := Option.ite_none_left_eq_some.mp hvalue
  obtain ⟨message, -, hvalue⟩ := Option.bind_eq_some_iff.mp hvalue
  obtain rfl := Option.some.inj hvalue
  refine ⟨p, hp, v, hv, fun hnil => hcond ?_, fun hnil => ?_, rfl, rfl⟩
  · rw [logical, hnil]
    rfl
  · rw [hnil] at hknown
    exact nomatch hknown

/-- The rule on unknown keys is about keys that have a name. -/
theorem exists_of_unknown {s : Settings} (h : g ∈ d.diagnostics c s) (hrule : g.rule = .unknown) :
    ∃ p ∈ d.properties, g.span = p.key ∧ g.propertyName = some (d.name p) ∧ d.name p ≠ [] := by
  obtain ⟨f, hf, hspan, hname⟩ := exists_finding h
  rw [hrule] at hf
  obtain ⟨p, hp, hne, -, -, rfl⟩ := mem_unknownFindings_iff.mp hf
  exact ⟨p, hp, hspan, hname, hne⟩

/-- The rule on values is about values that are not empty, of properties that have a name. -/
theorem exists_of_value {s : Settings} (h : g ∈ d.diagnostics c s) (hrule : g.rule = .value) :
    ∃ p ∈ d.properties, ∃ v, p.value? = some v ∧ g.span = v.span ∧
      g.propertyName = some (d.name p) ∧ d.name p ≠ [] ∧ d.raw v.span ≠ [] := by
  obtain ⟨f, hf, hspan, hname⟩ := exists_finding h
  rw [hrule] at hf
  obtain ⟨p, hp, v, hv, hraw, hne, hspan', hname'⟩ := exists_of_mem_valueFindings hf
  exact ⟨p, hp, v, hv, hspan.trans hspan', hname.trans hname', hne, hraw⟩

/-- The rule on required properties is about names of the catalog. -/
theorem exists_of_required {s : Settings} (h : g ∈ d.diagnostics c s)
    (hrule : g.rule = .required) :
    ∃ k ∈ c.properties, k.required = true ∧ g.propertyName = some k.name := by
  obtain ⟨f, hf, -, hname⟩ := exists_finding h
  rw [hrule] at hf
  obtain ⟨name, hmissing, rfl⟩ := List.mem_map.mp hf
  obtain ⟨k, hk, rfl⟩ := List.mem_map.mp hmissing
  obtain ⟨hmem, hcond⟩ := List.mem_filter.mp hk
  simp only [Bool.and_eq_true] at hcond
  exact ⟨k, hmem, hcond.1.1.1, hname⟩

/-- Diagnostics on required properties all name one. -/
theorem exists_names_of_required {s : Settings} {gs : List Diagnostic}
    (hgs : ∀ g ∈ gs, g ∈ d.diagnostics c s ∧ g.rule = .required) :
    gs.map Diagnostic.propertyName = (gs.filterMap Diagnostic.propertyName).map some ∧
      ∀ name ∈ gs.filterMap Diagnostic.propertyName,
        ∃ k ∈ c.properties, k.required = true ∧ k.name = name := by
  refine ⟨?_, fun name hname => ?_⟩
  · rw [List.map_filterMap, ← List.filterMap_eq_map]
    refine List.filterMap_congr fun g hg => ?_
    obtain ⟨k, -, -, hsome⟩ := exists_of_required (hgs g hg).1 (hgs g hg).2
    rw [Function.comp_apply, hsome, Option.map_some]
  · obtain ⟨g, hg, hsome⟩ := List.mem_filterMap.mp hname
    obtain ⟨k, hk, hrequired, hsome'⟩ := exists_of_required (hgs g hg).1 (hgs g hg).2
    exact ⟨k, hk, hrequired, Option.some.inj (hsome'.symm.trans hsome)⟩

end Document

/-! ## What actions do -/

/-- The actions of a list that has a poll before each of its entries. -/
theorem Step.mem_results_polled {α : Type} {a : α} {l : List (Option α)} :
    a ∈ results (l.flatMap fun a? => .poll :: a?.toList.map .yield) ↔ some a ∈ l := by
  rw [results_flatMap, List.mem_flatMap]
  simp

theorem Choice.preferred_mem_spellings (choice : Choice) (converters : List Converter) :
    choice.preferred converters ∈ choice.spellings converters := by
  cases converters <;> simp [Choice.preferred, Choice.spellings]

namespace Document

/-- The catalog has `t` to suggest after a diagnostic on `p` : for a key, a known name that is
similar, and for a value, a spelling of one that the property takes. -/
def Suggests (d : Document) (c : Catalog) (p : Property) (r : Rule) (t : Text) : Prop :=
  match r with
  | .value => ∃ known, c.find? (d.name p) = some known ∧
      ∃ choice ∈ (c.choices? known).getD [], t ∈ choice.spellings known.converters
  | _ => t ∈ similarNames c (d.name p)

/-- What is written in the place of the key or value if `t` is suggested. -/
def correction (d : Document) (p : Property) (r : Rule) (t : Text) : Text :=
  match r with
  | .value => t
  | _ => d.renamed p t

variable {d : Document} {c : Catalog} {g : Diagnostic} {a : Action}

/-- A replacement is an action on its diagnostic, and edits its span. -/
theorem eq_of_replacement? {title : String} {kind : ActionKind} {span : Span} {new : Text}
    (h : d.replacement? g title kind span new = some a) :
    a.diagnostics = [g] ∧ ∃ range, d.buffer.rangeOf span = .ok range ∧
      a.remedy = .edits [⟨range, span, new⟩] := by
  rw [replacement?] at h
  split at h
  · rename_i range hrange
    obtain rfl := Option.some.inj h
    exact ⟨rfl, range, hrange, rfl⟩
  · exact nomatch h

theorem exists_of_mem_keyFixes {fs : FixSettings} {p : Property} {name : Text}
    (ha : a ∈ Step.results (d.keyFixes c fs g p name)) :
    a.diagnostics = [g] ∧ ∀ es, a.remedy = .edits es → ∃ range,
      d.buffer.rangeOf p.key = .ok range ∧ ∃ t ∈ similarNames c name,
        es = [⟨range, p.key, d.renamed p t⟩] := by
  rcases List.mem_append.mp (Step.mem_results_polled.mp ha) with ha | ha
  · obtain ⟨t, ht, ha⟩ := List.mem_map.mp ha
    obtain ⟨hfor, range, hrange, hremedy⟩ := eq_of_replacement? ha
    refine ⟨hfor, fun es hes => ⟨range, hrange, t, ht, ?_⟩⟩
    exact Remedy.edits.inj (hes.symm.trans hremedy)
  · obtain ⟨pattern, -, ha⟩ := List.mem_map.mp ha
    obtain rfl := Option.some.inj ha
    exact ⟨rfl, fun _ => nofun⟩

theorem exists_of_mem_valueFixes {p : Property} {v : Value}
    (hat : d.valueAt? g.span.start = some (p, v))
    (ha : a ∈ Step.results (d.valueFixes c g)) :
    a.diagnostics = [g] ∧ ∀ es, a.remedy = .edits es → ∃ range,
      d.buffer.rangeOf g.span = .ok range ∧ ∃ t, d.Suggests c p .value t ∧
        es = [⟨range, g.span, t⟩] := by
  rw [valueFixes, hat] at ha
  dsimp only at ha
  split at ha
  · exact nomatch ha
  · rename_i known hknown
    have hsuggests : ∀ {title : String} {kind : ActionKind} {choice : Choice} {t : Text},
        choice ∈ (c.choices? known).getD [] → t ∈ choice.spellings known.converters →
          d.replacement? g title kind g.span t = some a →
            a.diagnostics = [g] ∧ ∀ es, a.remedy = .edits es → ∃ range,
              d.buffer.rangeOf g.span = .ok range ∧ ∃ t, d.Suggests c p .value t ∧
                es = [⟨range, g.span, t⟩] := by
      intro title kind choice t hchoice ht ha
      obtain ⟨hfor, range, hrange, hremedy⟩ := eq_of_replacement? ha
      refine ⟨hfor, fun es hes => ⟨range, hrange, t, ⟨known, hknown, choice, hchoice, ht⟩, ?_⟩⟩
      exact Remedy.edits.inj (hes.symm.trans hremedy)
    have ha' := Step.mem_results_polled.mp ha
    split_ifs at ha'
    · obtain ⟨t, ht, ha'⟩ := List.mem_map.mp ha'
      obtain ⟨choice, hchoice, rfl⟩ := List.mem_map.mp ht
      exact hsuggests hchoice (choice.preferred_mem_spellings known.converters) ha'
    · obtain ⟨t, ht, ha'⟩ := List.mem_map.mp ha'
      obtain ⟨choice, hchoice, hspelling⟩ := List.mem_flatMap.mp (List.mem_of_mem_filter ht)
      exact hsuggests hchoice hspelling ha'

end Document

theorem Buffer.exists_rangeOf {b : Buffer} {o : Nat} (h : o ≤ b.text.length) :
    ∃ range, b.rangeOf ⟨o, o⟩ = .ok range := by
  obtain ⟨p, hp⟩ := Option.isSome_iff_exists.mp (Text.isSome_walk h ⟨0, 0⟩)
  have hposition : b.positionAt o = .ok p := by
    rw [positionAt, Text.positionAt?, hp]
  exact ⟨⟨p, p⟩, by rw [rangeOf, hposition]; rfl⟩

namespace Document

variable {d : Document} {c : Catalog} {g : Diagnostic} {a : Action}

/-- What is written behind the content to add required properties. -/
def insertion (d : Document) (fs : FixSettings) (names : List Text) : Text :=
  let delimiter := d.buffer.lineDelimiter 0
  (if 0 < d.contentEnd then delimiter else []) ++ insertedLines names delimiter fs.spaced

/-- There is an action that adds required properties, and it writes behind the content. -/
theorem exists_addRequired? (d : Document) (fs : FixSettings) (required : List Diagnostic) :
    ∃ range, d.addRequired? fs required =
      some ⟨"Add all missing required properties?", .addRequired, required,
        .edits [⟨range, ⟨d.contentEnd, d.contentEnd⟩,
          d.insertion fs (required.filterMap Diagnostic.propertyName)⟩]⟩ := by
  have hbegins := List.rdropWhile_prefix isBlank d.buffer.text
  have hlength : d.contentEnd ≤ d.buffer.text.length := hbegins.length_le
  obtain ⟨range, hrange⟩ := Buffer.exists_rangeOf hlength
  refine ⟨range, ?_⟩
  rw [addRequired?, hrange, insertion]
  split_ifs <;> rfl

/-- If required properties are missing, the first action adds them. -/
theorem head?_fixes {fs : FixSettings} {gs : List Diagnostic} (h : ∃ g ∈ gs, g.rule = .required) :
    (Step.results (d.fixes c fs gs)).head? =
      d.addRequired? fs (gs.filter fun g => g.rule == .required) := by
  obtain ⟨g, hg, hrule⟩ := h
  have hmem : g ∈ gs.filter fun g => g.rule == .required :=
    List.mem_filter.mpr ⟨hg, by simpa using hrule⟩
  obtain ⟨range, haction⟩ := d.exists_addRequired? fs (gs.filter fun g => g.rule == .required)
  rw [fixes, Step.results_poll_cons, Step.results_append, Step.results_map_yield,
    if_neg (by simpa using List.ne_nil_of_mem hmem), haction]
  rfl

/-- An action on one diagnostic settles that one. -/
theorem diagnostics_of_mem_fixesFor {fs : FixSettings}
    (ha : a ∈ Step.results (d.fixesFor c fs g)) : a.diagnostics = [g] := by
  rw [fixesFor, Step.results_poll_cons] at ha
  split at ha
  · rw [unknownFixes] at ha
    split at ha
    · split at ha
      · exact (exists_of_mem_keyFixes ha).1
      · exact nomatch ha
    · exact nomatch ha
  · cases hat : d.valueAt? g.span.start with
    | none =>
      rw [valueFixes, hat] at ha
      exact nomatch ha
    | some found => exact (exists_of_mem_valueFixes hat ha).1
  · exact nomatch ha

/-- An action for a diagnostic that no rule on required properties gave is one of its own
actions. -/
theorem mem_fixesFor_of_mem_diagnostics {fs : FixSettings} {gs : List Diagnostic}
    (ha : a ∈ Step.results (d.fixes c fs gs)) (hfor : g ∈ a.diagnostics)
    (hrule : g.rule ≠ .required) : a ∈ Step.results (d.fixesFor c fs g) := by
  rw [fixes, Step.results_poll_cons, Step.results_append, Step.results_map_yield,
    Step.results_flatMap] at ha
  rcases List.mem_append.mp ha with ha | ha
  · -- The action that adds properties settles diagnostics of the other rule.
    rw [Option.mem_toList] at ha
    obtain ⟨-, ha⟩ := Option.ite_none_left_eq_some.mp ha
    obtain ⟨range, hrequired⟩ :=
      d.exists_addRequired? fs (gs.filter fun g => g.rule == .required)
    obtain rfl := Option.some.inj (hrequired.symm.trans ha)
    exact (hrule (by simpa using (List.mem_filter.mp hfor).2)).elim
  · obtain ⟨g', -, ha⟩ := List.mem_flatMap.mp ha
    rw [diagnostics_of_mem_fixesFor ha, List.mem_singleton] at hfor
    rwa [hfor]

theorem mem_fixesFor_of_mem_fixes {fs : FixSettings} {gs : List Diagnostic}
    (ha : a ∈ Step.results (d.fixes c fs gs)) (hfor : a.diagnostics = [g])
    (hrule : g.rule ≠ .required) : a ∈ Step.results (d.fixesFor c fs g) :=
  mem_fixesFor_of_mem_diagnostics ha (hfor ▸ List.mem_singleton_self g) hrule

theorem name?_of_ne_nil {p : Property} (h : d.name p ≠ []) : d.name? p = some (d.name p) := by
  rw [name] at h ⊢
  cases hname : d.name? p with
  | none => exact (h (by rw [hname]; rfl)).elim
  | some name => rfl

theorem raw_key_ne_nil {p : Property} (h : d.name p ≠ []) : d.raw p.key ≠ [] := by
  intro hnil
  refine h ?_
  rw [name, name?_eq, hnil]
  rfl

section Correction

variable {b : Buffer} {fs : FixSettings} {es : List Edit} {p : Property}

theorem exists_of_mem_unknownFixes (hp : p ∈ (ofBuffer b).properties)
    (hspan : g.span = p.key) (hname : (ofBuffer b).name p ≠ [])
    (ha : a ∈ Step.results ((ofBuffer b).unknownFixes c fs g)) (hes : a.remedy = .edits es) :
    ∃ range, ∃ t ∈ similarNames c ((ofBuffer b).name p),
      es = [⟨range, p.key, (ofBuffer b).renamed p t⟩] := by
  have hat := keyAt?_start hp
  have hname? := name?_of_ne_nil hname
  rw [← hspan] at hat
  rw [unknownFixes, hat] at ha
  dsimp only at ha
  rw [hname?] at ha
  obtain ⟨range, -, ht⟩ := (exists_of_mem_keyFixes ha).2 es hes
  exact ⟨range, ht⟩

/-- An action that edits the document after a diagnostic on a key or a value writes what the
catalog suggests in the place of that key or value, which is not empty. -/
theorem exists_correction {s : Settings} {gs : List Diagnostic}
    (hg : g ∈ (ofBuffer b).diagnostics c s) (hrule : g.rule = .unknown ∨ g.rule = .value)
    (ha : a ∈ Step.results ((ofBuffer b).fixes c fs gs)) (hfor : a.diagnostics = [g])
    (hes : a.remedy = .edits es) :
    ∃ p ∈ (ofBuffer b).properties, p.part? g.rule.part = some g.span ∧
      (ofBuffer b).raw g.span ≠ [] ∧ (g.rule = .unknown → (ofBuffer b).name p ≠ []) ∧
        ∃ range t, (ofBuffer b).Suggests c p g.rule t ∧
          es = [⟨range, g.span, (ofBuffer b).correction p g.rule t⟩] := by
  have hrequired : g.rule ≠ .required := by
    rcases hrule with hrule | hrule <;> rw [hrule] <;> exact nofun
  have ha := mem_fixesFor_of_mem_fixes ha hfor hrequired
  rw [fixesFor, Step.results_poll_cons] at ha
  rcases hrule with hrule | hrule
  · rw [hrule] at ha
    obtain ⟨p, hp, hspan, -, hname⟩ := exists_of_unknown hg hrule
    obtain ⟨range, t, ht, rfl⟩ := exists_of_mem_unknownFixes hp hspan hname ha hes
    rw [hrule, hspan]
    exact ⟨p, hp, rfl, raw_key_ne_nil hname, fun _ => hname, range, t, ht, rfl⟩
  · rw [hrule] at ha
    obtain ⟨p, hp, v, hv, hspan, -, -, hraw⟩ := exists_of_value hg hrule
    have hat := valueAt?_start hp hv
    rw [← hspan] at hat
    obtain ⟨range, -, t, ht, rfl⟩ := (exists_of_mem_valueFixes hat ha).2 es hes
    have hpart : p.part? .value = some v.span := congrArg (Option.map Value.span) hv
    rw [hrule, hspan]
    exact ⟨p, hp, hpart, hraw, nofun, range, t, ht, rfl⟩

end Correction

end Document

end DotProperties
