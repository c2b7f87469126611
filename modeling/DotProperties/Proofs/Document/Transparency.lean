import DotProperties.Proofs.Document.Outline
import DotProperties.Proofs.Text.Lines

/-!
# Continuation transparency

A continuation may be put inside a key or a value without changing what the properties of a
document say (`Document.entries_insert`).

The key or value is cut out of a layout of the text (`Site`), and whatever is put in its place
has the same outline in front of it and, moved, behind it (`Site.outlines_iff`). A scan that
reads the continuation goes on as it would without it, so the outline of the longer text is that
of the site with the longer key or value put in (`Site.outlines_insert`). The logical texts of
the two are the same.
-/

namespace DotProperties

open Event

/-! ## Places for a key or a value -/

theorem piecesText_literal (w : Text) : piecesText [⟨.literal, w⟩] = w := by simp [piecesText]

/-- A property with its key or its value left out. -/
inductive Slot where
  /-- Without its key. -/
  | key (ending : Ending)
  /-- Without its value. -/
  | value (name : Text) (before : Spacing) (delimiter : Char) (behind : Spacing)

namespace Slot

/-- What is left out. -/
def construct : Slot → Construct
  | key _ => .key
  | value .. => .value

theorem construct_eq (slot : Slot) : slot.construct = .key ∨ slot.construct = .value := by
  cases slot with
  | key => exact Or.inl rfl
  | value => exact Or.inr rfl

/-- The property with `w` put in. -/
def fill (w : Text) : Slot → Block
  | key ending => .property w ending
  | value name before delimiter behind =>
    .property name (.assigned before delimiter behind (some [⟨.literal, w⟩]))

/-- The text before it. -/
def front : Slot → Text
  | key _ => []
  | value name before delimiter behind => name ++ before.text ++ delimiter :: behind.text

/-- The text behind it. -/
def back : Slot → Text
  | key ending => ending.text
  | value .. => []

/-- The outline before it, if the property starts at `o`. -/
def opening (o : Nat) : Slot → List Event
  | key _ => [start .property o]
  | value name before _ _ =>
    [start .property o, start .key o, stop .key (o + name.length),
      assign (o + name.length + before.text.length)]

/-- The outline behind it, if it stops before `o`. -/
def closing (o : Nat) : Slot → List Event
  | key ending => outline (ending.marks o)
  | value .. => [stop .property o]

/-- The characters of the key and of the value with `w` put in. -/
def content (w : Text) : Slot → Text × Option Text
  | key ending => (w, ending.content)
  | value name _ _ _ => (name, some w)

theorem text_fill (w : Text) (slot : Slot) :
    (slot.fill w).text = slot.front ++ (w ++ slot.back) := by
  cases slot with
  | key => rfl
  | value => simp [fill, front, back, Block.text, Ending.text, valueText, piecesText_literal]

theorem add_length_front_value (o : Nat) (name : Text) (before : Spacing) (delimiter : Char)
    (behind : Spacing) : o + (value name before delimiter behind).front.length =
      o + name.length + before.text.length + 1 + behind.text.length := by
  simp only [front, List.length_append, List.length_cons]
  omega

theorem outline_fill (w : Text) (o : Nat) (slot : Slot) :
    outline ((slot.fill w).marks o) =
      slot.opening o ++ start slot.construct (o + slot.front.length) ::
        stop slot.construct (o + slot.front.length + w.length) ::
          slot.closing (o + slot.front.length + w.length) := by
  cases slot with
  | key => rfl
  | value name before delimiter behind =>
    rw [fill, outline_property, outline_assigned, outline_valueMarks, piecesText_literal,
      add_length_front_value]
    rfl

theorem contents_fill (w : Text) (slot : Slot) : (slot.fill w).contents = [slot.content w] := by
  cases slot with
  | key => rfl
  | value => simp [fill, content, Block.contents, Ending.content, piecesText_literal]

theorem shift_closing (n o : Nat) (slot : Slot) :
    (slot.closing o).map (shift n 0) = slot.closing (o + n) := by
  cases slot with
  | key ending => exact shift_outline_ending n o ending
  | value => rfl

/-- A value in one piece has the characters and the outline of one in several pieces. -/
theorem fill_value (name : Text) (before : Spacing) (delimiter : Char) (behind : Spacing)
    (ps : List Piece) :
    ((value name before delimiter behind).fill (piecesText ps)).text =
        (Block.property name (.assigned before delimiter behind (some ps))).text ∧
      ∀ o, outline (((value name before delimiter behind).fill (piecesText ps)).marks o) =
        outline ((Block.property name (.assigned before delimiter behind (some ps))).marks o) := by
  refine ⟨?_, fun o => ?_⟩
  · simp only [fill, Block.text, Ending.text, valueText, Option.map_some, piecesText_literal]
  · rw [fill, outline_property, outline_property, outline_assigned, outline_assigned,
      outline_valueMarks, outline_valueMarks, piecesText_literal]

/-- The key of a property, and its value if it has one, fill a slot. -/
theorem exists_of_span {o : Nat} {key : Text} {ending : Ending} {span : Span}
    (h : span = (ending.property o key).key ∨
      (ending.property o key).value?.map Value.span = some span) :
    ∃ (slot : Slot) (w : Text), (slot.fill w).text = (Block.property key ending).text ∧
      (∀ o', outline ((slot.fill w).marks o') = outline ((Block.property key ending).marks o')) ∧
      span = ⟨o + slot.front.length, o + slot.front.length + w.length⟩ := by
  rcases h with rfl | hvalue
  · exact ⟨.key ending, key, rfl, fun _ => rfl, rfl⟩
  · rcases ending with rest | ⟨before, delimiter, behind, _ | ps⟩
    · simp [Ending.property, Ending.assignment, Property.value?] at hvalue
    · simp [Ending.property, Ending.assignment, Property.value?] at hvalue
    · obtain rfl := Option.some.inj hvalue
      obtain ⟨htext, houtline⟩ := fill_value key before delimiter behind ps
      refine ⟨.value key before delimiter behind, piecesText ps, htext, houtline, ?_⟩
      rw [add_length_front_value]
      rfl

end Slot

/-- A layout, behind a byte order mark if there is one, with a key or a value left out. -/
structure Site where
  /-- The byte order mark. -/
  mark : Text
  /-- What stands before the property. -/
  before : Layout
  /-- The property. -/
  slot : Slot
  /-- What stands behind the property. -/
  behind : Layout

namespace Site

/-- The layout with `w` put in. -/
def fill (w : Text) (s : Site) : Layout := s.before ++ s.slot.fill w :: s.behind

/-- The text before what is left out. -/
def front (s : Site) : Text := s.mark ++ (s.before.text ++ s.slot.front)

/-- The text behind what is left out. -/
def back (s : Site) : Text := s.slot.back ++ s.behind.text

/-- The outline before what is left out. -/
def opening (s : Site) : List Event :=
  start .document 0 :: (outline (s.before.marks s.mark.length) ++
    s.slot.opening (s.mark.length + s.before.text.length))

/-- The outline behind what is left out, if that stops before `o`. -/
def closing (o : Nat) (s : Site) : List Event :=
  s.slot.closing o ++ (outline (s.behind.marks (o + s.slot.back.length)) ++
    [stop .document (o + s.back.length)])

theorem text_fill (w : Text) (s : Site) : s.mark ++ (s.fill w).text = s.front ++ (w ++ s.back) := by
  simp [fill, front, back, Layout.text, Slot.text_fill]

theorem length_front (s : Site) :
    s.front.length = s.mark.length + s.before.text.length + s.slot.front.length := by
  rw [front, List.length_append, List.length_append, Nat.add_assoc]

theorem outline_fill (w : Text) (s : Site) :
    start .document 0 :: (outline ((s.fill w).marks s.mark.length) ++
      [stop .document (s.front.length + w.length + s.back.length)]) =
      s.opening ++ start s.slot.construct s.front.length ::
        stop s.slot.construct (s.front.length + w.length) ::
          s.closing (s.front.length + w.length) := by
  have hmarks : (s.fill w).marks s.mark.length = s.before.marks s.mark.length ++
      ((s.slot.fill w).marks (s.mark.length + s.before.text.length) ++
        s.behind.marks (s.mark.length + s.before.text.length + (s.slot.fill w).text.length)) :=
    layOut_append _ _ _ _ _
  have hblock : s.mark.length + s.before.text.length + (s.slot.fill w).text.length =
      s.front.length + w.length + s.slot.back.length := by
    rw [Slot.text_fill, List.length_append, List.length_append, length_front]
    omega
  rw [hmarks, outline_append, outline_append, Slot.outline_fill, ← length_front, hblock]
  simp [opening, closing]

/-- A layout with `w` put in has the characters and the outline of a text if these are the ones
around it, with `w` between them. -/
theorem outlines_iff {w t : Text} (s : Site) : Layout.Outlines s.mark (s.fill w) t ↔
    t = s.front ++ (w ++ s.back) ∧
      outline (ofText t) = s.opening ++ start s.slot.construct s.front.length ::
        stop s.slot.construct (s.front.length + w.length) ::
          s.closing (s.front.length + w.length) := by
  have hlen : (s.front ++ (w ++ s.back)).length =
      s.front.length + w.length + s.back.length := by
    rw [List.length_append, List.length_append, Nat.add_assoc]
  rw [← outline_fill, ← hlen, ← text_fill]
  constructor
  · rintro ⟨rfl, hevents⟩
    exact ⟨rfl, hevents⟩
  · rintro ⟨rfl, hevents⟩
    exact ⟨rfl, hevents⟩

theorem shift_closing (n o : Nat) (s : Site) :
    (s.closing o).map (shift n 0) = s.closing (o + n) := by
  have hlayout := shift_outline_layout n (o + s.slot.back.length) s.behind
  rw [closing, closing, List.map_append, List.map_append, Slot.shift_closing, hlayout,
    Nat.add_right_comm o n, Nat.add_right_comm o n]
  rfl

theorem contents_fill (w : Text) (s : Site) :
    (s.fill w).contents = s.before.contents ++ s.slot.content w :: s.behind.contents := by
  simp [fill, Layout.contents, Slot.contents_fill]

end Site

/-- A stretch may be exchanged for another one with its characters and its outline. -/
theorem Layout.Outlines.exchange {mark t : Text} {l l' : Layout} {b b' : Block}
    (h : Outlines mark (l ++ b :: l') t) (htext : b'.text = b.text)
    (houtline : ∀ o, outline (b'.marks o) = outline (b.marks o)) :
    Outlines mark (l ++ b' :: l') t := by
  refine ⟨?_, ?_⟩
  · rw [h.text]
    simp [Layout.text, htext]
  · rw [h.events]
    simp [Layout.marks, layOut_append, layOut, htext, houtline]

/-- Every key and every value of a text has a site. -/
theorem Site.exists_of_span {t : Text} {p : Property}
    (hp : p ∈ (Tree.ofEvents (ofText t)).properties) {span : Span}
    (hspan : span = p.key ∨ p.value?.map Value.span = some span) :
    ∃ (s : Site) (w : Text), Layout.Outlines s.mark (s.fill w) t ∧
      span = ⟨s.front.length, s.front.length + w.length⟩ := by
  obtain ⟨mark, l, h⟩ := Layout.exists_describes t
  obtain ⟨i, hitem, hprop⟩ := List.mem_filterMap.mp hp
  rw [h.items] at hitem
  obtain ⟨before, b, behind, rfl, hi⟩ := mem_layOut hitem
  cases b with
  | gap => simp [Block.items] at hi
  | comment text =>
    obtain rfl := List.mem_singleton.mp hi
    simp [Item.property?] at hprop
  | property key ending =>
    obtain rfl := List.mem_singleton.mp hi
    obtain rfl := Option.some.inj hprop
    obtain ⟨slot, w, htext, houtline, rfl⟩ := Slot.exists_of_span hspan
    refine ⟨⟨mark, before, slot, behind⟩, w, h.outlines.exchange htext houtline, ?_⟩
    rw [length_front]
    rfl

/-! ## Putting a continuation in -/

namespace Site

variable {s : Site} {w v inserted : Text} {c : Char}

/-- With a continuation put into the key or value, the site still describes the text. -/
theorem outlines_insert {t t' : Text} (h : Layout.Outlines s.mark (s.fill (w ++ c :: v)) t)
    (hw : w ≠ []) (hc : Text.Continuable (s.front ++ w) c) (hinserted : inserted.IsContinuation)
    (ht' : t' = s.front ++ (w ++ (inserted ++ c :: v) ++ s.back)) :
    Layout.Outlines s.mark (s.fill (w ++ (inserted ++ c :: v))) t' := by
  obtain ⟨ht, hevents⟩ := s.outlines_iff.mp h
  have hpos : 0 < w.length := List.length_pos_iff.mpr hw
  have hsplit : t = s.front ++ w ++ c :: (v ++ s.back) := by
    rw [ht]
    simp
  have hsplit' : t' = s.front ++ w ++ (inserted ++ c :: (v ++ s.back)) := by
    rw [ht']
    simp
  have hgrow : s.front.length + (w ++ (inserted ++ c :: v)).length =
      s.front.length + (w ++ c :: v).length + inserted.length := by
    simp only [List.length_append]
    omega
  rw [hsplit] at hevents
  refine s.outlines_iff.mpr ⟨ht', ?_⟩
  rw [hsplit', hgrow, ← shift_closing]
  refine outline_ofText_insert s.slot.construct_eq hevents ?_ ?_ hc hinserted
  · rw [List.length_append]
    omega
  · simp only [List.length_append, List.length_cons]
    omega

end Site

/-! ## Documents -/

/-- What a property says : its name, its name together with its profile, and its value. -/
def Document.entry (d : Document) (p : Property) : Option Text × Text × Option Text :=
  (d.name? p, d.fullName p, d.value? p)

/-- What a key and a value, as they are written, say. -/
def entryOf (content : Text × Option Text) : Option Text × Text × Option Text :=
  (Text.nameOf content.1, content.1.join, content.2.map Text.join)

theorem Document.entry_eq (b : Buffer) (p : Property) :
    (ofBuffer b).entry p = entryOf (p.content b.text) := by
  have hraw (s : Span) : (ofBuffer b).raw s = b.text.slice s := raw_eq_slice _ s
  simp only [entry, entryOf, Property.content, name?_eq, fullName, value?, logical, hraw,
    Option.map_map]
  rfl

section Content

variable (b : Buffer) (p : Property)

theorem Document.name?_eq_nameOf :
    (ofBuffer b).name? p = Text.nameOf (p.content b.text).1 := congrArg Prod.fst (entry_eq b p)

theorem Document.fullName_eq_join : (ofBuffer b).fullName p = (p.content b.text).1.join :=
  congrArg (fun entry => entry.2.1) (entry_eq b p)

theorem Document.value?_eq_join : (ofBuffer b).value? p = (p.content b.text).2.map Text.join :=
  congrArg (fun entry => entry.2.2) (entry_eq b p)

end Content

theorem Layout.Outlines.entries {mark : Text} {l : Layout} {b : Buffer}
    (h : Outlines mark l b.text) :
    (Document.ofBuffer b).properties.map (Document.ofBuffer b).entry = l.contents.map entryOf := by
  rw [← h.contents, List.map_map]
  exact List.map_congr_left fun p _ => Document.entry_eq b p

theorem Slot.entryOf_content_insert {w inserted : Text} {c : Char} (hw : w ≠ [])
    (hinserted : inserted.IsContinuation) (hblank : isBlank c = false) (v : Text) (slot : Slot) :
    entryOf (slot.content (w ++ (inserted ++ c :: v))) = entryOf (slot.content (w ++ c :: v)) := by
  cases slot with
  | key ending =>
    simp only [entryOf, content, Text.nameOf_insert hinserted hblank hw,
      Text.join_insert hinserted hblank]
  | value => simp only [entryOf, content, Option.map_some, Text.join_insert hinserted hblank]

/-- The text `w` in front of and behind its character at `k`. -/
theorem Text.exists_eq_append_cons {u w v : Text} {k : Nat} {c : Char}
    (hc : (u ++ (w ++ v))[k]? = some c) (hstart : u.length ≤ k) (hstop : k < u.length + w.length) :
    ∃ x y, (u ++ x).length = k ∧ w = x ++ c :: y := by
  rw [List.getElem?_append_right hstart, List.getElem?_append_left (by omega)] at hc
  obtain ⟨x, y, rfl, hx⟩ := exists_cons_of_getElem? hc
  refine ⟨x, y, ?_, rfl⟩
  rw [List.length_append, hx]
  omega

/-- A continuation may be put anywhere inside a key or a value, unless the character behind it is
blank or starts a comment, it stands behind an odd number of backslashes, or it stands between a
`$` and a `{`. The document has as many properties as before, and they say the same. -/
theorem Document.entries_insert {b b' : Buffer} {k : Nat} {c : Char} {inserted : Text}
    (hinside : ∃ p ∈ (ofBuffer b).properties, ∃ s : Span,
      (s = p.key ∨ p.value?.map Value.span = some s) ∧ s.start < k ∧ k < s.stop)
    (hc : b.text[k]? = some c) (hplace : Text.Continuable (b.text.take k) c)
    (hinserted : inserted.IsContinuation) (hb' : b'.text = b.text.splice ⟨k, k⟩ inserted) :
    (ofBuffer b').properties.map (ofBuffer b').entry =
      (ofBuffer b).properties.map (ofBuffer b).entry := by
  obtain ⟨p, hp, span, hspan, hstart, hstop⟩ := hinside
  obtain ⟨s, w, houtlines, rfl⟩ := Site.exists_of_span hp hspan
  have htext := houtlines.text
  rw [Site.text_fill] at htext
  dsimp only at hstart hstop
  rw [htext] at hc
  obtain ⟨x, v, hk, rfl⟩ := Text.exists_eq_append_cons hc (Nat.le_of_lt hstart) hstop
  have hsplit : b.text = s.front ++ x ++ (c :: v ++ s.back) := by
    rw [htext]
    simp
  have htext' : b'.text = s.front ++ (x ++ (inserted ++ c :: v) ++ s.back) := by
    rw [hb', Text.splice, hsplit, List.take_left' hk, List.drop_left' hk]
    simp
  have hx : x ≠ [] := by
    rintro rfl
    rw [List.append_nil] at hk
    omega
  rw [hsplit, List.take_left' hk] at hplace
  have houtlines' := Site.outlines_insert houtlines hx hplace hinserted htext'
  have hentry := Slot.entryOf_content_insert hx hinserted hplace.blank v s.slot
  rw [houtlines.entries, houtlines'.entries, Site.contents_fill, Site.contents_fill,
    List.map_append, List.map_append, List.map_cons, List.map_cons, hentry]

/-- A key with a profile, continued behind a carriage return and a space. -/
theorem Document.entries_insert_profile :
    ∃ (b b' : Buffer),
      b.text = ['%', 'd', '.', 'n', 'e', '=', '$', '{', 'x', '}', '\n', 'k', ':', 'v'] ∧
      b'.text = ['%', 'd', '.', 'n', '\\', '\r', ' ', 'e', '=', '$', '{', 'x', '}', '\n', 'k', ':',
        'v'] ∧
      (ofBuffer b).properties.map (ofBuffer b).entry =
        [(some ['n', 'e'], ['%', 'd', '.', 'n', 'e'], some ['$', '{', 'x', '}']),
          (some ['k'], ['k'], some ['v'])] ∧
      (ofBuffer b').properties.map (ofBuffer b').entry =
        (ofBuffer b).properties.map (ofBuffer b).entry := by
  refine ⟨⟨"a", ['%', 'd', '.', 'n', 'e', '=', '$', '{', 'x', '}', '\n', 'k', ':', 'v'], 1⟩,
    ⟨"a", ['%', 'd', '.', 'n', '\\', '\r', ' ', 'e', '=', '$', '{', 'x', '}', '\n', 'k', ':', 'v'],
      2⟩, rfl, rfl, by decide, ?_⟩
  exact @entries_insert _ _ 4 'e' ['\\', '\r', ' '] ⟨⟨⟨0, 10⟩, ⟨0, 5⟩, some ⟨5, some ⟨⟨6, 10⟩,
    [⟨.expression, 6, 10⟩]⟩⟩⟩, by decide, ⟨0, 5⟩, by decide, by decide, by decide⟩ rfl
    ⟨by decide, by decide, by decide, by decide⟩
    (@Text.IsContinuation.intro ['\r'] [' '] (by decide) (by simp [isSpacing])) rfl

end DotProperties
