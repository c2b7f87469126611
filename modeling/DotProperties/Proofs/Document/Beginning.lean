import Mathlib.Data.List.Forall2
import DotProperties.Proofs.Document.Outline
import DotProperties.Proofs.Event.Origin

/-!
# Texts that go on with blanks

The properties up to a place in a text, as they are written, are those that the scan has finished
there, and the one that it has open as if the line ended (`Text.lineWordings`). If the end of the
line would end what is open (`Mode.isClosable`), blanks behind that place change nothing but the
last value, which goes on with spacing at most (`Text.extends_append`). Nor does the end of the
text (`Text.extends_wordings`).

One blank is a step lemma over the modes : a terminator finishes what is open
(`Mode.wordings_read_terminator`), and spacing becomes part of an open value or is skipped
(`Mode.extends_read_spacing`). Behind a delimiter the end of a line starts a value, and the end of
the text does not, so there it matters that the draft holds no older value (`Text.value_draft`).
-/

namespace DotProperties

open Event

/-! ## Wordings -/

/-- The characters of a property as they are written. -/
structure Wording where
  /-- Those of its key. -/
  key : Text
  /-- Those of its value, if it has one, behind a delimiter, if it has one. -/
  assigned : Option (Option Text)

/-- The characters of a property of `t`. -/
def Property.wording (t : Text) (p : Property) : Wording :=
  ⟨t.slice p.key, p.assignment.map fun a => a.value.map fun v => t.slice v.span⟩

namespace Wording

/-- The characters of the value, none if there is no value. -/
def value (r : Wording) : Text := r.assigned.join.getD []

/-- A property has the key of another one, and its value with spacing behind it. -/
structure Extends (r r' : Wording) : Prop where
  /-- The key is the same. -/
  key : r'.key = r.key
  /-- If one has a delimiter, both have. -/
  assigned : r'.assigned.isSome = r.assigned.isSome
  /-- The value goes on with spacing at most. -/
  value : ∃ s : Text, (∀ c ∈ s, isSpacing c = true) ∧ r'.value = r.value ++ s

theorem Extends.refl (r : Wording) : r.Extends r := ⟨rfl, rfl, [], nofun, (List.append_nil _).symm⟩

theorem Extends.trans {r₁ r₂ r₃ : Wording} (h : r₁.Extends r₂) (h' : r₂.Extends r₃) :
    r₁.Extends r₃ := by
  obtain ⟨s, hs, hvalue⟩ := h.value
  obtain ⟨s', hs', hvalue'⟩ := h'.value
  refine ⟨h'.key.trans h.key, h'.assigned.trans h.assigned, s ++ s', ?_, ?_⟩
  · exact List.forall_mem_append.mpr ⟨hs, hs'⟩
  · rw [hvalue', hvalue, List.append_assoc]

theorem extends_refl (rs : List Wording) : List.Forall₂ Extends rs rs :=
  List.forall₂_same.mpr fun r _ => .refl r

theorem extends_trans {rs₁ rs₂ rs₃ : List Wording} (h : List.Forall₂ Extends rs₁ rs₂)
    (h' : List.Forall₂ Extends rs₂ rs₃) : List.Forall₂ Extends rs₁ rs₃ := by
  induction h generalizing rs₃ with
  | nil => exact h'
  | cons hr _ ih =>
    obtain ⟨r, rs, hr', hrs', rfl⟩ := List.forall₂_cons_left_iff.mp h'
    exact .cons (hr.trans hr') (ih hrs')

end Wording

/-! ## Drafts -/

/-- The characters of the properties finished so far. -/
def Draft.wordings (t : Text) (d : Draft) : List Wording :=
  d.items.reverse.filterMap fun i => i.property?.map (Property.wording t)

/-- The outline of a text tells the characters of its properties. -/
theorem Tree.wordings_ofText (t : Text) :
    (Tree.ofEvents (ofText t)).properties.map (Property.wording t) =
      ((outline (ofText t)).foldl Draft.add {}).wordings t := by
  obtain ⟨mark, l, h⟩ := Layout.exists_describes t
  have hitems : ((outline (ofText t)).foldl Draft.add {}).items.reverse =
      (Tree.ofEvents (ofText t)).items.map Item.outline := by
    rw [h.items]
    exact h.outlines.items
  have hsame : (fun i : Item => i.property?.map (Property.wording t)) ∘ Item.outline =
      fun i : Item => i.property?.map (Property.wording t) := by
    funext i
    rcases i with s | ⟨s, k, _ | ⟨o, _ | v⟩⟩ <;> rfl
  rw [Draft.wordings, hitems, List.filterMap_map, hsame]
  exact List.map_filterMap

/-- The key and the value of a property lie in the first `k` characters. -/
def Property.Within (k : Nat) (p : Property) : Prop :=
  p.key.stop ≤ k ∧ ∀ v, p.value? = some v → v.span.stop ≤ k

theorem Text.slice_append_of_le {t : Text} {s : Span} (h : s.stop ≤ t.length) (u : Text) :
    (t ++ u).slice s = t.slice s := by
  rw [slice, slice, Span.length, List.drop_append, List.take_append]
  have hnone : (u.drop (s.start - t.length)).take (s.stop - s.start - (t.drop s.start).length) =
      [] := by
    rw [List.length_drop, List.take_eq_nil_iff]
    exact Or.inl (by omega)
  rw [hnone, List.append_nil]

theorem Property.Within.wording_append {t : Text} {p : Property} (h : p.Within t.length)
    (u : Text) : p.wording (t ++ u) = p.wording t := by
  obtain ⟨hkey, hvalue⟩ := h
  rcases p with ⟨s, k, _ | ⟨o, _ | v⟩⟩
  · simp [wording, Text.slice_append_of_le hkey]
  · simp [wording, Text.slice_append_of_le hkey]
  · simp [wording, Text.slice_append_of_le hkey, Text.slice_append_of_le (hvalue v rfl)]

namespace Draft

/-- What a draft holds lies in the first `k` characters. -/
structure Within (k : Nat) (d : Draft) : Prop where
  /-- The properties that are finished. -/
  items : ∀ p, Item.property p ∈ d.items → p.Within k
  /-- The key of the property. -/
  key : d.key.stop ≤ k
  /-- The start of the value. -/
  valueStart : d.valueStart ≤ k
  /-- The value. -/
  value : ∀ v, d.value = some v → v.span.stop ≤ k

variable {d : Draft} {k : Nat}

theorem Within.finishProperty (h : d.Within k) (o : Nat) : (d.finishProperty o).Within k := by
  refine ⟨h.key, fun v hv => h.value v ?_⟩
  obtain ⟨a, ha, hav⟩ := Option.bind_eq_some_iff.mp hv
  obtain ⟨o', -, rfl⟩ := Option.map_eq_some_iff.mp ha
  exact hav

theorem Within.add (h : d.Within k) {e : Event} (he : e.offset ≤ k) : (d.add e).Within k := by
  have hfinish := h.finishProperty
  obtain ⟨hitems, hkey, hstart, hvalue⟩ := h
  cases e with
  | start c o =>
    cases c with
    | document | key | literal | expression | comment => exact ⟨hitems, hkey, hstart, hvalue⟩
    | property => exact ⟨hitems, hkey, hstart, fun v hv => nomatch hv⟩
    | value => exact ⟨hitems, hkey, he, hvalue⟩
  | stop c o =>
    cases c with
    | document | literal | expression => exact ⟨hitems, hkey, hstart, hvalue⟩
    | key => exact ⟨hitems, he, hstart, hvalue⟩
    | value =>
      refine ⟨hitems, hkey, hstart, fun v hv => ?_⟩
      obtain rfl := Option.some.inj hv
      exact he
    | property =>
      refine ⟨fun p hp => ?_, hkey, hstart, hvalue⟩
      rcases List.mem_cons.mp hp with hp | hp
      · obtain rfl := Item.property.inj hp
        exact hfinish o
      · exact hitems p hp
    | comment =>
      refine ⟨fun p hp => ?_, hkey, hstart, hvalue⟩
      rcases List.mem_cons.mp hp with hp | hp
      · exact nomatch hp
      · exact hitems p hp
  | assign | blankLine | invalid => exact ⟨hitems, hkey, hstart, hvalue⟩

theorem Within.foldl {es : List Event} (h : d.Within k) (hes : ∀ e ∈ es, e.offset ≤ k) :
    (es.foldl Draft.add d).Within k := by
  induction es generalizing d with
  | nil => exact h
  | cons e es ih =>
    obtain ⟨he, hes⟩ := List.forall_mem_cons.mp hes
    exact ih (h.add he) hes

theorem wordings_add_property (t : Text) (d : Draft) (o : Nat) :
    (d.add (Event.stop .property o)).wordings t =
      d.wordings t ++ [(d.finishProperty o).wording t] := by
  simp [wordings, add, Item.property?]

theorem wordings_add_comment (t : Text) (d : Draft) (o : Nat) :
    (d.add (Event.stop .comment o)).wordings t = d.wordings t := by
  simp [wordings, add, Item.property?]

theorem Within.wordings_append {t : Text} (h : d.Within t.length) (u : Text) :
    d.wordings (t ++ u) = d.wordings t := by
  refine List.filterMap_congr fun i hi => ?_
  cases i with
  | comment => rfl
  | property p =>
    exact congrArg some ((h.items p (List.mem_reverse.mp hi)).wording_append u)

end Draft

/-! ## What is open -/

namespace Mode

/-- The end of the line would end what is open. -/
def isClosable : Mode → Bool
  | escape _ => false
  | lineStart pending | afterReturn pending | indent pending => pending.isNone
  | _ => true

/-- The property that is open, if the line ended at `o`. -/
def openProperty? (o : Nat) (d : Draft) : Mode → Option Property
  | run .key => some (Draft.finishProperty { d with key := ⟨d.leaf, o⟩ } o)
  | run _ | between | dollar =>
    some (Draft.finishProperty { d with value := some ⟨⟨d.valueStart, o⟩, d.fragments.reverse⟩ } o)
  | afterKey | skipped => some (d.finishProperty o)
  | afterAssign => some (Draft.finishProperty { d with value := some ⟨⟨o, o⟩, []⟩ } o)
  | _ => none

/-- The properties of the text `t`, if the line ended behind it. -/
def wordings (t : Text) (d : Draft) (m : Mode) : List Wording :=
  d.wordings t ++ (m.openProperty? t.length d).toList.map (Property.wording t)

variable {m : Mode} {t : Text} {d : Draft}

theorem isClosable_of_isFresh (h : m.isFresh = true) : m.isClosable = true := by
  rcases eq_of_isFresh h with rfl | rfl | rfl | rfl <;> rfl

theorem openProperty?_of_isFresh (h : m.isFresh = true) (o : Nat) (d : Draft) :
    m.openProperty? o d = none := by
  rcases eq_of_isFresh h with rfl | rfl | rfl | rfl <;> rfl

theorem within_openProperty? {k : Nat} (h : d.Within k) :
    ∀ p ∈ m.openProperty? k d, p.Within k := by
  have hkey : Draft.Within k { d with key := ⟨d.leaf, k⟩ } :=
    ⟨h.items, Nat.le_refl k, h.valueStart, h.value⟩
  have hvalue : ∀ v : Value, v.span.stop ≤ k → Draft.Within k { d with value := some v } := by
    refine fun v hv => ⟨h.items, h.key, h.valueStart, fun v' hv' => ?_⟩
    obtain rfl := Option.some.inj hv'
    exact hv
  intro p hp
  cases m with
  | run r =>
    cases r with
    | key =>
      obtain rfl := Option.some.inj hp
      exact hkey.finishProperty k
    | literal | expression =>
      obtain rfl := Option.some.inj hp
      exact (hvalue _ (Nat.le_refl k)).finishProperty k
  | between | dollar | afterAssign =>
    obtain rfl := Option.some.inj hp
    exact (hvalue _ (Nat.le_refl k)).finishProperty k
  | afterKey | skipped =>
    obtain rfl := Option.some.inj hp
    exact h.finishProperty k
  | start | lineStart | afterReturn | indent | escape | comment => exact nomatch hp

/-- The end of a line finishes what is open. -/
theorem wordings_onLineEnd (hm : m.isClosable = true) (o : Nat) (t : Text) (d : Draft) :
    ((outline (m.onLineEnd o).1).foldl Draft.add d).wordings t =
      d.wordings t ++ (m.openProperty? o d).toList.map (Property.wording t) ∧
      (m.onLineEnd o).2 = none := by
  cases m with
  | lineStart pending | afterReturn pending | indent pending =>
    obtain rfl := Option.isNone_iff_eq_none.mp hm
    exact ⟨(List.append_nil _).symm, rfl⟩
  | start => exact ⟨(List.append_nil _).symm, rfl⟩
  | escape => exact nomatch hm
  | run r => cases r <;> exact ⟨Draft.wordings_add_property t _ o, rfl⟩
  | afterKey | skipped | afterAssign | between | dollar =>
    exact ⟨Draft.wordings_add_property t _ o, rfl⟩
  | comment => exact ⟨(Draft.wordings_add_comment t d o).trans (List.append_nil _).symm, rfl⟩

/-- A line terminator ends what is open. -/
theorem isFresh_read_terminator (hm : m.isClosable = true) (p : Place) {c : Char}
    (hc : isTerminator c = true) :
    (m.read p c).2.isFresh = true ∧ ∀ (t : Text) (d : Draft),
      ((outline (m.read p c).1).foldl Draft.add d).wordings t =
        d.wordings t ++ (m.openProperty? p.offset d).toList.map (Property.wording t) := by
  have hline := wordings_onLineEnd hm p.offset
  obtain ⟨-, hnone⟩ := hline [] {}
  cases hcompletes : m.completesTerminator c with
  | true =>
    cases m with
    | afterReturn pending =>
      obtain rfl := Option.isNone_iff_eq_none.mp hm
      rw [(Takes.feed none (eq_of_beq hcompletes)).read_eq]
      exact ⟨rfl, fun _ _ => (List.append_nil _).symm⟩
    | _ => cases hcompletes
  | false =>
    rw [read_of_terminator hcompletes hc, hnone]
    exact ⟨apply_nextLine isFresh rfl c, fun t d => (hline t d).1⟩

/-- A line terminator changes nothing about the properties up to it. -/
theorem wordings_read_terminator (hm : m.isClosable = true) (hd : d.Within t.length) {p : Place}
    (hp : p.offset = t.length) {c : Char} (hc : isTerminator c = true) :
    (m.read p c).2.isClosable = true ∧
      (m.read p c).2.wordings (t ++ [c]) ((outline (m.read p c).1).foldl Draft.add d) =
        m.wordings t d := by
  obtain ⟨hfresh, hwordings⟩ := isFresh_read_terminator hm p hc
  refine ⟨isClosable_of_isFresh hfresh, ?_⟩
  rw [wordings, openProperty?_of_isFresh hfresh, hwordings, hp, hd.wordings_append]
  refine (List.append_nil _).trans (congrArg (_ ++ ·) (List.map_congr_left fun q hq => ?_))
  exact (within_openProperty? hd q (Option.mem_toList.mp hq)).wording_append [c]

theorem extends_of_open {m' : Mode} {d' : Draft} (hd : d.Within t.length)
    (hitems : d'.items = d.items) {c : Char}
    (hopen : List.Forall₂ Wording.Extends
      ((m.openProperty? t.length d).toList.map (Property.wording t))
      ((m'.openProperty? (t ++ [c]).length d').toList.map (Property.wording (t ++ [c])))) :
    List.Forall₂ Wording.Extends (m.wordings t d) (m'.wordings (t ++ [c]) d') := by
  have hwordings : d'.wordings (t ++ [c]) = d.wordings t := by
    rw [← hd.wordings_append [c], Draft.wordings, hitems]
    rfl
  rw [wordings, wordings, hwordings]
  exact List.rel_append (Wording.extends_refl _) hopen

/-- A value that is open goes on with the character behind it. -/
theorem extends_openValue (hd : d.Within t.length) {c : Char} (hc : isSpacing c = true)
    (fragments : List Fragment) :
    (Property.wording t (Draft.finishProperty
        { d with value := some ⟨⟨d.valueStart, t.length⟩, fragments⟩ } t.length)).Extends
      (Property.wording (t ++ [c]) (Draft.finishProperty
        { d with value := some ⟨⟨d.valueStart, (t ++ [c]).length⟩, fragments⟩ }
          (t ++ [c]).length)) := by
  have hslice : (t ++ [c]).slice ⟨d.valueStart, (t ++ [c]).length⟩ =
      t.slice ⟨d.valueStart, t.length⟩ ++ [c] := by
    rw [Text.slice, Text.slice, List.drop_append_of_le_length hd.valueStart,
      List.take_of_length_le, List.take_of_length_le]
    · simp [Span.length]
    · have hstart := hd.valueStart
      simp only [Span.length, List.length_append, List.length_drop, List.length_singleton]
      omega
  have hkey := Text.slice_append_of_le hd.key [c]
  cases hassign : d.assign with
  | none => exact ⟨hkey, rfl, [], List.forall_mem_nil _, rfl⟩
  | some a => exact ⟨hkey, rfl, [c], List.forall_mem_singleton.mpr hc, hslice⟩

theorem read_spacing_fresh (hm : m.isFresh = true) (p : Place) {c : Char}
    (hc : isSpacing c = true) : m.read p c = ([], indent none) := by
  have hmark : m.isByteOrderMark c = false := by
    rcases Text.isSpacing_iff.mp hc with rfl | rfl <;> cases m <;> rfl
  rw [read_of_isFresh hm hmark (Text.not_isTerminator_of_isSpacing hc)]
  exact (Takes.indent none hc).read_eq

theorem eq_of_inside_value (hm : m.isClosable = true) (h : m.inside = some .value) :
    m = run .literal ∨ m = run .expression ∨ m = between ∨ m = dollar := by
  cases m with
  | run r => cases r <;> simp_all [inside, Run.part]
  | lineStart pending | afterReturn pending | indent pending =>
    obtain rfl := Option.isNone_iff_eq_none.mp hm
    cases h
  | escape r => cases hm
  | start | afterKey | skipped | afterAssign | comment => cases h
  | between | dollar => simp

theorem openProperty?_value (hm : m.isClosable = true) (h : m.inside = some .value) (o : Nat)
    (d : Draft) : m.openProperty? o d = some (Draft.finishProperty
      { d with value := some ⟨⟨d.valueStart, o⟩, d.fragments.reverse⟩ } o) := by
  rcases eq_of_inside_value hm h with rfl | rfl | rfl | rfl <;> rfl

/-- Spacing in a value is part of a fragment. -/
theorem read_spacing_value (hm : m.isClosable = true) (h : m.inside = some .value) (p : Place)
    {c : Char} (hc : isSpacing c = true) :
    outline (m.read p c).1 = [] ∧ (m.read p c).2.isClosable = true ∧
      (m.read p c).2.inside = some .value := by
  rcases Text.isSpacing_iff.mp hc with rfl | rfl <;>
    rcases eq_of_inside_value hm h with rfl | rfl | rfl | rfl <;> exact ⟨rfl, rfl, rfl⟩

/-- Spacing behind the last character of a value is part of the value, and it changes nothing else
about the properties up to it. -/
theorem extends_read_spacing (hm : m.isClosable = true) (hd : d.Within t.length) {p : Place}
    (hp : p.offset = t.length) {c : Char} (hc : isSpacing c = true) :
    (m.read p c).2.isClosable = true ∧ List.Forall₂ Wording.Extends (m.wordings t d)
      ((m.read p c).2.wordings (t ++ [c]) ((outline (m.read p c).1).foldl Draft.add d)) := by
  by_cases hfresh : m.isFresh = true
  · rw [read_spacing_fresh hfresh p hc]
    refine ⟨rfl, extends_of_open hd rfl ?_⟩
    rw [openProperty?_of_isFresh hfresh]
    exact .nil
  by_cases hvalue : m.inside = some .value
  · obtain ⟨hnone, hclosable, hvalue'⟩ := read_spacing_value hm hvalue p hc
    rw [hnone]
    refine ⟨hclosable, extends_of_open hd rfl ?_⟩
    rw [openProperty?_value hm hvalue, openProperty?_value hclosable hvalue']
    exact .cons (extends_openValue hd hc _) .nil
  -- What is left is a property without a value yet, and what is skipped.
  have hsame : ∀ {q q' : Property}, q.Within t.length →
      q'.wording (t ++ [c]) = q.wording (t ++ [c]) →
        List.Forall₂ Wording.Extends [q.wording t] [q'.wording (t ++ [c])] := by
    intro q q' hq hq'
    rw [hq', hq.wording_append]
    exact Wording.extends_refl _
  have hterminator := Text.not_isTerminator_of_isSpacing hc
  cases m with
  | start => exact (hfresh rfl).elim
  | lineStart pending | afterReturn pending | indent pending =>
    obtain rfl := Option.isNone_iff_eq_none.mp hm
    exact (hfresh rfl).elim
  | run r =>
    cases r with
    | key =>
      have hstops : Run.key.stopsAt c = true := by simp [Run.stopsAt, hc]
      rw [(Turns.key hstops).read_eq, (Takes.beforeAssign hc).read_eq, hp]
      refine ⟨rfl, extends_of_open hd ?_ ?_⟩
      · rfl
      · exact hsame (within_openProperty? (m := run .key) hd _ rfl) rfl
    | literal | expression => exact (hvalue rfl).elim
  | escape r => cases hm
  | between | dollar => exact (hvalue rfl).elim
  | afterKey =>
    rw [(Takes.beforeAssign hc).read_eq]
    refine ⟨rfl, extends_of_open hd rfl ?_⟩
    exact hsame (hd.finishProperty t.length) rfl
  | skipped =>
    rw [(Takes.skipped hterminator).read_eq]
    refine ⟨rfl, extends_of_open hd rfl ?_⟩
    exact hsame (hd.finishProperty t.length) rfl
  | afterAssign =>
    rw [(Takes.behindAssign hc).read_eq]
    refine ⟨rfl, extends_of_open hd rfl ?_⟩
    refine hsame (within_openProperty? (m := afterAssign) hd _ rfl) ?_
    -- Wherever the value starts, there is nothing in it.
    have hnone : ∀ o, (t ++ [c]).slice ⟨o, o⟩ = [] := by simp [Text.slice, Span.length]
    simp only [Property.wording, Draft.finishProperty, Option.map_map]
    refine congrArg _ (congrArg (d.assign.map ·) (funext fun a => congrArg some ?_))
    exact (hnone _).trans (hnone _).symm
  | comment =>
    rw [(Takes.inComment hterminator).read_eq]
    exact ⟨rfl, extends_of_open hd rfl .nil⟩

end Mode

/-! ## Properties without a value -/

namespace Mode

/-- A property may be open that has no value yet. -/
def awaitsValue : Mode → Bool
  | lineStart pending | afterReturn pending | indent pending => pending == some .key
  | run r | escape r => r == .key
  | afterKey | afterAssign => true
  | _ => false

theorem EndsLine.value_eq_none {o : Nat} {m : Mode} {outcome : List Event × Option Run} {d : Draft}
    (h : EndsLine o m outcome) (hd : m.awaitsValue = true → d.value = none)
    (hpending : outcome.2 = some .key) :
    ((outline outcome.1).foldl Draft.add d).value = none := by
  cases h with
  | continued r =>
    obtain rfl := Option.some.inj hpending
    exact hd rfl
  | value | blank | closed => cases hpending

/-- A property that is open and has no value yet has none in the draft. -/
theorem Reads.value_eq_none {p : Place} {c : Char} {m m' : Mode} {es : List Event} {d : Draft}
    (h : Reads p c m es m') (hd : m.awaitsValue = true → d.value = none)
    (hm' : m'.awaitsValue = true) : ((outline es).foldl Draft.add d).value = none := by
  induction h generalizing d with
  | take h =>
    cases h with
    | lineEnd _ _ hend =>
      rw [apply_nextLine awaitsValue rfl] at hm'
      exact hend.value_eq_none hd (eq_of_beq hm')
    | escaped | part =>
      rw [outline_report]
      exact hd hm'
    | feed | indent | backslash | assign | beforeAssign | behindAssign => exact hd hm'
    | mark | comment | literal | dollar | opening | closing | skipped | inComment => cases hm'
  | turn h _ ih =>
    rw [outline_append, List.foldl_append]
    refine ih (fun hawaits => ?_) hm'
    cases h with
    | property => rfl
    | lineStart | afterReturn | resume | key => exact hd hawaits
    | start | skip | value | literal | dollar => cases hawaits

end Mode

/-! ## Texts that go on with blanks -/

namespace Text

/-- The draft behind a text. -/
def draft (t : Text) : Draft := (outline (Scanner.initial.events t)).foldl Draft.add {}

/-- The properties of a text, if the line ended behind it. -/
def lineWordings (t : Text) : List Wording := (Scanner.initial.after t).mode.wordings t t.draft

/-- The properties of a text. -/
def wordings (t : Text) : List Wording :=
  (Tree.ofEvents (ofText t)).properties.map (Property.wording t)

theorem draft_append (t u : Text) :
    (t ++ u).draft = (outline ((Scanner.initial.after t).events u)).foldl Draft.add t.draft := by
  rw [draft, Scanner.events_append, outline_append, List.foldl_append]
  rfl

theorem draft_concat (t : Text) (c : Char) :
    (t ++ [c]).draft = (outline ((Scanner.initial.after t).mode.read
      (Scanner.initial.after t).place c).1).foldl Draft.add t.draft := by
  rw [draft_append, Scanner.events, Scanner.events, List.append_nil]

theorem after_concat_mode (t : Text) (c : Char) : (Scanner.initial.after (t ++ [c])).mode =
    ((Scanner.initial.after t).mode.read (Scanner.initial.after t).place c).2 := by
  rw [Scanner.after_append]
  rfl

theorem within_draft (t : Text) : t.draft.Within t.length := by
  have hempty : Draft.Within t.length {} := ⟨nofun, Nat.zero_le _, Nat.zero_le _, nofun⟩
  refine hempty.foldl fun e he => offset_le_of_mem_outline (t := t) ?_
  exact List.mem_cons_of_mem _ he

variable {t : Text}

/-- A blank behind a text leaves the properties up to it as they are, but for spacing behind the
last value. -/
theorem extends_concat (hm : (Scanner.initial.after t).mode.isClosable = true) {c : Char}
    (hc : isSpacing c = true ∨ isTerminator c = true) :
    (Scanner.initial.after (t ++ [c])).mode.isClosable = true ∧
      List.Forall₂ Wording.Extends t.lineWordings (t ++ [c]).lineWordings := by
  have hoffset := Scanner.offset_after_initial t
  rw [lineWordings, lineWordings, after_concat_mode, draft_concat]
  rcases hc with hc | hc
  · exact Mode.extends_read_spacing hm t.within_draft hoffset hc
  · obtain ⟨hclosable, hwordings⟩ :=
      Mode.wordings_read_terminator hm t.within_draft hoffset hc
    rw [hwordings]
    exact ⟨hclosable, Wording.extends_refl _⟩

theorem value_draft (h : (Scanner.initial.after t).mode.awaitsValue = true) :
    t.draft.value = none := by
  induction t using List.reverseRecOn with
  | nil => rfl
  | append_singleton t c ih =>
    rw [after_concat_mode] at h
    rw [draft_concat]
    exact (Mode.reads_read _ _ c).value_eq_none ih h

theorem wordings_eq (t : Text) : t.wordings = ((outline ((Scanner.initial.after t).mode.onTextEnd
    t.length)).foldl Draft.add t.draft).wordings t := by
  have hevents := Scanner.initial.results_scan_append t []
  have hoffset := Scanner.offset_after_initial t
  rw [List.append_nil, Scanner.results_scan_nil, hoffset] at hevents
  rw [wordings, Tree.wordings_ofText, ofText_eq, hevents, ← List.cons_append, ← List.append_assoc,
    outline_append, outline_append, List.foldl_append, List.foldl_append]
  rfl

/-- The end of a text finishes what is open. -/
theorem extends_wordings (hm : (Scanner.initial.after t).mode.isClosable = true) :
    List.Forall₂ Wording.Extends t.lineWordings t.wordings := by
  have hline := (Mode.wordings_onLineEnd hm t.length t t.draft).1
  have hvalue := value_draft (t := t)
  rw [wordings_eq, lineWordings, Mode.wordings, ← hline]
  generalize (Scanner.initial.after t).mode = m at hm hvalue ⊢
  cases m with
  | lineStart pending | afterReturn pending | indent pending =>
    obtain rfl := Option.isNone_iff_eq_none.mp hm
    exact Wording.extends_refl _
  | escape => exact Bool.noConfusion hm
  | afterAssign =>
    show List.Forall₂ Wording.Extends
      ((((t.draft.add (start .value t.length)).add (stop .value t.length)).add
        (stop .property t.length)).wordings t)
      ((t.draft.add (stop .property t.length)).wordings t)
    rw [Draft.wordings_add_property, Draft.wordings_add_property]
    refine List.rel_append (Wording.extends_refl _) (.cons ?_ .nil)
    have hnone : t.slice ⟨t.length, t.length⟩ = [] := by simp [slice]
    refine ⟨rfl, by simp [Property.wording, Draft.finishProperty, Draft.add], [],
      List.forall_mem_nil _, ?_⟩
    cases hassign : t.draft.assign <;>
      simp [Property.wording, Draft.finishProperty, Draft.add, Wording.value, hvalue rfl, hassign,
        hnone]
  | start | run | afterKey | skipped | between | dollar | comment => exact Wording.extends_refl _

/-- Blanks behind a text leave the properties up to them as they are, but for spacing behind the
last value. -/
theorem extends_append (hm : (Scanner.initial.after t).mode.isClosable = true) {u : Text}
    (hu : ∀ c ∈ u, isSpacing c = true ∨ isTerminator c = true) :
    (Scanner.initial.after (t ++ u)).mode.isClosable = true ∧
      List.Forall₂ Wording.Extends t.lineWordings (t ++ u).lineWordings := by
  induction u generalizing t with
  | nil =>
    rw [List.append_nil]
    exact ⟨hm, Wording.extends_refl _⟩
  | cons c u ih =>
    obtain ⟨hc, hu⟩ := List.forall_mem_cons.mp hu
    obtain ⟨hclosable, hwordings⟩ := extends_concat hm hc
    obtain ⟨hclosable', hwordings'⟩ := ih hclosable hu
    rw [List.append_cons]
    exact ⟨hclosable', Wording.extends_trans hwordings hwordings'⟩

end Text

end DotProperties
