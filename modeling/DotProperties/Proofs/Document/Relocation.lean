import Mathlib.Data.List.Basic
import DotProperties.Proofs.Event.Locality
import DotProperties.Proofs.Document.Transparency
import DotProperties.Validation.Basic

/-!
# Moved documents

If the events of a text are moved, the tree they describe is moved in the same way
(`Tree.ofEvents_relocate`) : it has the same items, and every span has its ends moved.

A document mirrors another one (`Document.Mirrors`) if it has the properties and errors of that
one, moved, and says the same in them. Then every rule finds the same in both of them, and only
the spans of the findings are moved (`Document.Mirrors.findings`).
-/

namespace DotProperties

/-! ## Moved trees -/

/-- The span with its ends moved. -/
def Span.relocate (f : Nat → Nat) (s : Span) : Span := ⟨f s.start, f s.stop⟩

/-- The fragment with its span moved. -/
def Fragment.relocate (f : Nat → Nat) (x : Fragment) : Fragment := ⟨x.kind, x.span.relocate f⟩

/-- The value with all its spans moved. -/
def Value.relocate (f : Nat → Nat) (v : Value) : Value :=
  ⟨v.span.relocate f, v.fragments.map (Fragment.relocate f)⟩

/-- The delimiter and the value behind it, moved. -/
def Assignment.relocate (f : Nat → Nat) (a : Assignment) : Assignment :=
  ⟨f a.offset, a.value.map (Value.relocate f)⟩

/-- The property with all its spans moved. -/
def Property.relocate (f : Nat → Nat) (p : Property) : Property :=
  ⟨p.span.relocate f, p.key.relocate f, p.assignment.map (Assignment.relocate f)⟩

/-- The item with all its spans moved. -/
def Item.relocate (f : Nat → Nat) : Item → Item
  | comment s => comment (s.relocate f)
  | property p => property (p.relocate f)

/-- The tree with all its spans moved. -/
def Tree.relocate (f : Nat → Nat) (t : Tree) : Tree :=
  ⟨t.span.relocate f, t.items.map (Item.relocate f)⟩

/-- The tree under construction with all its offsets moved. -/
def Draft.relocate (f : Nat → Nat) (d : Draft) : Draft where
  items := d.items.map (Item.relocate f)
  leaf := f d.leaf
  property := f d.property
  key := d.key.relocate f
  assign := d.assign.map f
  valueStart := f d.valueStart
  fragments := d.fragments.map (Fragment.relocate f)
  value := d.value.map (Value.relocate f)
  stop := f d.stop

/-- The invalid character with its offset moved. -/
def InvalidCharacter.relocate (f : Nat → Nat) (e : InvalidCharacter) : InvalidCharacter :=
  ⟨e.character, f e.offset, e.position⟩

section

variable (f : Nat → Nat)

theorem Draft.add_relocate (g : Position → Position) (d : Draft) (e : Event) :
    (d.relocate f).add (e.relocate f g) = (d.add e).relocate f := by
  have hproperty (o : Nat) :
      (d.relocate f).finishProperty (f o) = (d.finishProperty o).relocate f := by
    simp [finishProperty, relocate, Property.relocate, Span.relocate, Assignment.relocate,
      Option.map_map, Function.comp_def]
  rcases e with k | k | _ | _ | _
  · cases k <;> rfl
  · cases k with
    | property =>
      rw [Event.relocate, add, hproperty]
      rfl
    | value =>
      simp [Event.relocate, add, relocate, Value.relocate, Span.relocate, List.map_reverse]
    | document | key | literal | expression | comment => rfl
  · rfl
  · rfl
  · rfl

theorem Draft.foldl_relocate (g : Position → Position) (es : List Event) (d : Draft) :
    (es.map (Event.relocate f g)).foldl add (d.relocate f) = (es.foldl add d).relocate f := by
  induction es generalizing d with
  | nil => rfl
  | cons e es ih => rw [List.map_cons, List.foldl_cons, add_relocate, ih, List.foldl_cons]

/-- Moved events describe the moved tree. -/
theorem Tree.ofEvents_relocate (hf : f 0 = 0) (g : Position → Position) (es : List Event) :
    ofEvents (es.map (Event.relocate f g)) = (ofEvents es).relocate f := by
  have hinitial : Draft.relocate f {} = {} := by simp [Draft.relocate, Span.relocate, hf]
  have hfold := Draft.foldl_relocate f g es {}
  rw [hinitial] at hfold
  rw [ofEvents, hfold, ofEvents]
  simp [Draft.tree, Draft.relocate, relocate, Span.relocate, hf, List.map_reverse]

theorem Tree.properties_relocate (t : Tree) :
    (t.relocate f).properties = t.properties.map (Property.relocate f) := by
  rw [properties, relocate, List.filterMap_map, properties, List.map_filterMap]
  refine List.filterMap_congr fun i _ => ?_
  cases i <;> rfl

theorem Property.value?_relocate (p : Property) :
    (p.relocate f).value? = p.value?.map (Value.relocate f) := by
  obtain ⟨-, -, _ | ⟨-, _ | v⟩⟩ := p <;> rfl

theorem Value.expressions_relocate (v : Value) :
    (v.relocate f).expressions = v.expressions.map (Fragment.relocate f) := by
  rw [expressions, relocate, List.filter_map]
  rfl

theorem Property.hasExpression_relocate (p : Property) :
    (p.relocate f).hasExpression = p.hasExpression := by
  rw [hasExpression, value?_relocate, hasExpression]
  cases p.value? with
  | none => rfl
  | some v => exact List.any_map

theorem Event.filterMap_invalid?_relocate (es : List Event) :
    (es.map (relocate f id)).filterMap invalid? =
      (es.filterMap invalid?).map (InvalidCharacter.relocate f) := by
  rw [List.filterMap_map, List.map_filterMap]
  refine List.filterMap_congr fun e _ => ?_
  cases e <;> rfl

end

/-! ## Documents that say the same -/

/-- The spans of a property that have a text : its key, its value and the fragments of it. -/
def Property.spans (p : Property) : List Span :=
  p.key :: p.value?.toList.flatMap fun v => v.span :: v.fragments.map Fragment.span

/-- The finding with its span moved. -/
def Finding.relocate (f : Nat → Nat) (x : Finding) : Finding := { x with span := x.span.relocate f }

namespace Document

/-- The document `d'` says what `d` says, with the offsets of `d` moved. -/
structure Mirrors (f : Nat → Nat) (d d' : Document) : Prop where
  /-- It has the same properties, moved. -/
  properties : d'.properties = d.properties.map (Property.relocate f)
  /-- It has the same invalid characters, moved. -/
  errors : d'.errors = d.errors.map (InvalidCharacter.relocate f)
  /-- The properties have the same names. -/
  name? : ∀ p ∈ d.properties, d'.name? (p.relocate f) = d.name? p
  /-- The parts of the properties have the same logical texts. -/
  logical : ∀ p ∈ d.properties, ∀ s ∈ p.spans, d'.logical (s.relocate f) = d.logical s
  /-- No key gets lost, and none is made. -/
  isEmpty : ∀ p ∈ d.properties, (p.key.relocate f).isEmpty = p.key.isEmpty
  /-- The start of the text stays. -/
  zero : f 0 = 0
  /-- An invalid character is still one character. -/
  single : ∀ e ∈ d.errors, f (e.offset + 1) = f e.offset + 1

/-- What a property says : its names and its value, and the kinds and logical texts of its
fragments. -/
def reading (d : Document) (p : Property) :
    (Option Text × Text × Option Text) × Option (List (FragmentKind × Text)) :=
  (d.entry p, p.value?.map fun v => v.fragments.map fun x => (x.kind, d.logical x.span))

namespace Mirrors

variable {f : Nat → Nat} {d d' : Document} (h : d.Mirrors f d')
include h

section

variable {p : Property} (hp : p ∈ d.properties)
include hp

theorem name : d'.name (p.relocate f) = d.name p := by
  rw [Document.name, h.name? p hp, Document.name]

theorem fullName : d'.fullName (p.relocate f) = d.fullName p :=
  h.logical p hp p.key List.mem_cons_self

theorem logical_value {v : Value} (hv : p.value? = some v) :
    d'.logical (v.span.relocate f) = d.logical v.span :=
  h.logical p hp v.span (by simp [Property.spans, hv])

theorem logical_fragment {v : Value} (hv : p.value? = some v) {x : Fragment}
    (hx : x ∈ v.fragments) : d'.logical (x.span.relocate f) = d.logical x.span := by
  refine h.logical p hp x.span (List.mem_cons_of_mem _ ?_)
  rw [hv]
  exact List.mem_flatMap.mpr ⟨v, List.mem_singleton_self v,
    List.mem_cons_of_mem _ (List.mem_map_of_mem hx)⟩

theorem value? : d'.value? (p.relocate f) = d.value? p := by
  rw [Document.value?, Property.value?_relocate, Document.value?]
  cases hv : p.value? with
  | none => rfl
  | some v => exact congrArg some (h.logical_value hp hv)

theorem setValue? : d'.setValue? (p.relocate f) = d.setValue? p := by
  rw [Document.setValue?, h.value? hp, Document.setValue?]

theorem isExcluded (globs : List NameGlob) :
    d'.isExcluded globs (p.relocate f) = d.isExcluded globs p := by
  rw [Document.isExcluded, h.name hp, h.fullName hp, Document.isExcluded]

theorem reading : d'.reading (p.relocate f) = d.reading p := by
  have hentry : d'.entry (p.relocate f) = d.entry p := by
    rw [entry, h.name? p hp, h.fullName hp, h.value? hp, entry]
  rw [Document.reading, hentry, Property.value?_relocate, Document.reading]
  cases hv : p.value? with
  | none => rfl
  | some v =>
    have hfragments : (v.relocate f).fragments.map (fun x => (x.kind, d'.logical x.span)) =
        v.fragments.map fun x => (x.kind, d.logical x.span) := by
      rw [Value.relocate, List.map_map]
      exact List.map_congr_left fun x hx => congrArg (x.kind, ·) (h.logical_fragment hp hv hx)
    exact congrArg (d.entry p, some ·) hfragments

end

/-- What is the same for each property is the same for the whole row of them. -/
theorem map_properties {α : Type} {F F' : Property → α}
    (hF : ∀ p ∈ d.properties, F' (p.relocate f) = F p) :
    d'.properties.map F' = d.properties.map F := by
  rw [h.properties, List.map_map]
  exact List.map_congr_left hF

theorem filterMap_properties {F F' : Property → Option Finding}
    (hF : ∀ p ∈ d.properties, F' (p.relocate f) = (F p).map (Finding.relocate f)) :
    d'.properties.filterMap F' = (d.properties.filterMap F).map (Finding.relocate f) := by
  rw [h.properties, List.filterMap_map, List.map_filterMap]
  exact List.filterMap_congr hF

/-! ### The rules -/

variable (c : Catalog) (globs : List NameGlob)

theorem formFindings : d'.formFindings globs = (d.formFindings globs).map (Finding.relocate f) := by
  rw [Document.formFindings, Document.formFindings, List.map_append]
  congr 1
  · refine h.filterMap_properties fun p hp => ?_
    have hassignment : (p.relocate f).assignment.isSome = p.assignment.isSome := Option.isSome_map
    have hkey : (p.relocate f).key.isEmpty = p.key.isEmpty := h.isEmpty p hp
    simp only [missingDelimiter?, hassignment, hkey, h.fullName hp]
    split_ifs <;> rfl
  · rw [h.errors, List.map_map, List.map_map]
    refine List.map_congr_left fun e he => ?_
    have hspan : Span.single (f e.offset) = (Span.single e.offset).relocate f :=
      congrArg (Span.mk _) (h.single e he).symm
    exact congrArg (Finding.mk · e.cause none) hspan

theorem unknownFindings :
    d'.unknownFindings c globs = (d.unknownFindings c globs).map (Finding.relocate f) := by
  refine h.filterMap_properties fun p hp => ?_
  rw [unknownKey?, unknownKey?, h.name hp, h.isExcluded hp]
  split_ifs <;> rfl

theorem duplicateFindings :
    d'.duplicateFindings globs = (d.duplicateFindings globs).map (Finding.relocate f) := by
  have hnames : d'.repeatedNames = d.repeatedNames := by
    rw [repeatedNames, h.map_properties fun p hp => h.fullName hp, repeatedNames]
  refine h.filterMap_properties fun p hp => ?_
  rw [duplicateKey?, duplicateKey?, hnames, h.fullName hp, h.isExcluded hp]
  split_ifs <;> rfl

theorem valueFindings :
    d'.valueFindings c globs = (d.valueFindings c globs).map (Finding.relocate f) := by
  refine h.filterMap_properties fun p hp => ?_
  rw [misfit?, misfit?, Property.value?_relocate]
  cases hv : p.value? with
  | none => rfl
  | some v =>
    have hlogical : d'.logical (v.relocate f).span = d.logical v.span := h.logical_value hp hv
    simp only [Option.map_some, Option.bind_eq_bind, Option.bind_some, hlogical,
      Property.hasExpression_relocate, h.name hp, h.isExcluded hp]
    cases c.find? (d.name p) with
    | none => split_ifs <;> rfl
    | some known =>
      simp only [Option.bind_some]
      cases c.valueError? known (d.logical v.span).trim <;> split_ifs <;> rfl

theorem requiredFindings :
    d'.requiredFindings c globs = (d.requiredFindings c globs).map (Finding.relocate f) := by
  have hkeys : d'.keys = d.keys := by
    have hset : d.properties.filter ((fun p => (d'.setValue? p).isSome) ∘ Property.relocate f) =
        d.properties.filter fun p => (d.setValue? p).isSome :=
      List.filter_congr fun p hp => congrArg Option.isSome (h.setValue? hp)
    rw [keys, keys, h.properties, List.filter_map, List.map_map, hset]
    refine congrArg List.eraseDups (List.map_congr_left fun p hp => ?_)
    exact h.fullName (List.mem_of_mem_filter hp)
  have hmissing : d'.missing c globs = d.missing c globs := by rw [missing, hkeys, missing]
  rw [Document.requiredFindings, hmissing, Document.requiredFindings, List.map_map]
  refine List.map_congr_left fun name _ => ?_
  simp [Finding.relocate, Span.relocate, h.zero]

theorem expressionFinding? {p : Property} (hp : p ∈ d.properties) {v : Value}
    (hv : p.value? = some v) {x : Fragment} (hx : x ∈ v.fragments) (names : List Text) :
    d'.expressionFinding? c names (x.relocate f) =
      (d.expressionFinding? c names x).map (Finding.relocate f) := by
  have hlogical : d'.logical (x.relocate f).span = d.logical x.span := h.logical_fragment hp hv hx
  have hreference : d'.reference? (x.relocate f) = d.reference? x := by
    rw [reference?, hlogical, reference?]
  have hclosed : d'.isClosed (x.relocate f) = d.isClosed x := by rw [isClosed, hlogical, isClosed]
  have hfallback : d'.fallback? (x.relocate f) = d.fallback? x := by
    rw [fallback?, hlogical, fallback?]
  rw [Document.expressionFinding?, hreference, hclosed, hfallback, Document.expressionFinding?]
  cases d.reference? x with
  | none => rfl
  | some reference =>
    simp only [Option.bind_eq_bind, Option.bind_some]
    split_ifs <;> rfl

theorem expressionFindings :
    d'.expressionFindings c globs = (d.expressionFindings c globs).map (Finding.relocate f) := by
  have hnames : d'.properties.map d'.name = d.properties.map d.name :=
    h.map_properties fun p hp => h.name hp
  rw [Document.expressionFindings, Document.expressionFindings, hnames, h.properties,
    List.flatMap_map, List.map_flatMap]
  refine List.flatMap_congr fun p hp => ?_
  simp only [Property.value?_relocate, h.isExcluded hp]
  cases hv : p.value? with
  | none => rfl
  | some v =>
    simp only [Option.map_some, Value.expressions_relocate]
    split_ifs
    · rfl
    · rw [List.filterMap_map, List.map_filterMap]
      refine List.filterMap_congr fun x hx => ?_
      exact h.expressionFinding? c hp hv (List.mem_of_mem_filter hx) _

/-- Every rule finds the same, moved. -/
theorem findings (r : Rule) :
    d'.findings c globs r = (d.findings c globs r).map (Finding.relocate f) := by
  cases r with
  | form => exact h.formFindings globs
  | unknown => exact h.unknownFindings c globs
  | duplicate => exact h.duplicateFindings globs
  | value => exact h.valueFindings c globs
  | required => exact h.requiredFindings c globs
  | expression => exact h.expressionFindings c globs

end Mirrors

end Document

end DotProperties
