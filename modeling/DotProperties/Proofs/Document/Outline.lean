import DotProperties.Document.Basic
import DotProperties.Proofs.Document.Tree
import DotProperties.Proofs.Event.Resumption

/-!
# What an outline tells

The outline of a text does not tell the fragments of its values, but it tells its properties with
the spans of their keys and values (`Draft.items_foldl_outline`). So any layout with the right
characters and the right outline will do to read off what stands in the keys and the values of a
text, however it divides the values into pieces (`Layout.Outlines.contents`).
-/

namespace DotProperties

open Event

/-! ## Trees without fragments -/

/-- The delimiter and the value without its fragments. -/
def Assignment.outline (a : Assignment) : Assignment :=
  ⟨a.offset, a.value.map fun v => ⟨v.span, []⟩⟩

/-- The property without the fragments of its value. -/
def Property.outline (p : Property) : Property :=
  ⟨p.span, p.key, p.assignment.map Assignment.outline⟩

/-- The part without fragments. -/
def Item.outline : Item → Item
  | comment s => comment s
  | property p => property p.outline

theorem outline_piecesMarks (o : Nat) (ps : List Piece) : outline (piecesMarks o ps) = [] := by
  induction ps generalizing o with
  | nil => rfl
  | cons p ps ih =>
    obtain ⟨kind, w⟩ := p
    cases kind <;> exact ih (o + w.length)

theorem outline_valueMarks (o : Nat) (ps : List Piece) :
    outline (valueMarks o (some ps)) = [start .value o, stop .value (o + (piecesText ps).length),
      stop .property (o + (piecesText ps).length)] := by
  have hpieces := outline_piecesMarks o ps
  show start .value o :: outline (piecesMarks o ps ++ _) = _
  rw [outline_append, hpieces]
  rfl

theorem outline_assigned (o : Nat) (before : Spacing) (delimiter : Char) (behind : Spacing)
    (value : Option (List Piece)) :
    outline ((Ending.assigned before delimiter behind value).marks o) =
      assign (o + before.text.length) ::
        outline (valueMarks (o + before.text.length + 1 + behind.text.length) value) := rfl

theorem outline_property (o : Nat) (key : Text) (ending : Ending) :
    outline ((Block.property key ending).marks o) =
      start .property o :: start .key o :: stop .key (o + key.length) ::
        outline (ending.marks (o + key.length)) := rfl

namespace Draft

theorem items_foldl_outline_block (b : Block) (o : Nat) (d : Draft) :
    ((outline (b.marks o)).foldl add d).items =
      ((b.items o).map Item.outline).reverse ++ d.items := by
  cases b with
  | gap | comment => rfl
  | property key ending =>
    cases ending with
    | skipped rest => rfl
    | assigned before delimiter behind value =>
      simp only [Block.items, Ending.property, Ending.add_length_assigned]
      cases value with
      | none => rfl
      | some ps =>
        rw [outline_property, outline_assigned, outline_valueMarks]
        rfl

/-- The outline of a layout adds its parts without their fragments. -/
theorem items_foldl_outline (l : Layout) (o : Nat) (d : Draft) :
    ((outline (l.marks o)).foldl add d).items =
      ((l.items o).map Item.outline).reverse ++ d.items := by
  induction l generalizing o d with
  | nil => rfl
  | cons b l ih =>
    simp only [Layout.marks, Layout.items] at ih ⊢
    simp only [layOut, outline_append, List.foldl_append, List.map_append, List.reverse_append]
    rw [ih, items_foldl_outline_block, List.append_assoc]

end Draft

/-! ## Moved outlines -/

theorem shift_outline_value (n o : Nat) (value : Option (List Piece)) :
    (outline (valueMarks o value)).map (shift n 0) = outline (valueMarks (o + n) value) := by
  cases value with
  | none => rfl
  | some ps =>
    rw [outline_valueMarks, outline_valueMarks, Nat.add_right_comm o n]
    rfl

theorem shift_outline_ending (n o : Nat) (e : Ending) :
    (outline (e.marks o)).map (shift n 0) = outline (e.marks (o + n)) := by
  cases e with
  | skipped rest =>
    show [stop .property (o + rest.length + n)] = [stop .property (o + n + rest.length)]
    rw [Nat.add_right_comm]
  | assigned before delimiter behind value =>
    have hbehind : o + n + before.text.length + 1 + behind.text.length =
        o + before.text.length + 1 + behind.text.length + n := by omega
    rw [outline_assigned, outline_assigned, hbehind, Nat.add_right_comm o n, List.map_cons,
      shift_outline_value]
    rfl

theorem shift_outline_block (n o : Nat) (b : Block) :
    (outline (b.marks o)).map (shift n 0) = outline (b.marks (o + n)) := by
  cases b with
  | gap => rfl
  | comment text =>
    show [start .comment (o + n), stop .comment (o + text.length + n)] =
      [start .comment (o + n), stop .comment (o + n + text.length)]
    rw [Nat.add_right_comm]
  | property key ending =>
    have hending := shift_outline_ending n (o + key.length) ending
    rw [outline_property, outline_property, Nat.add_right_comm o n, ← hending]
    rfl

theorem shift_outline_layout (n o : Nat) (l : Layout) :
    (outline (l.marks o)).map (shift n 0) = outline (l.marks (o + n)) := by
  induction l generalizing o with
  | nil => rfl
  | cons b l ih =>
    simp only [Layout.marks] at ih ⊢
    simp only [layOut, outline_append, List.map_append]
    rw [shift_outline_block, ih, Nat.add_right_comm o n]

/-! ## Contents -/

/-- The characters of the key and of the value of a property, as they are written. -/
def Property.content (t : Text) (p : Property) : Text × Option Text :=
  (t.slice p.key, p.value?.map fun v => t.slice v.span)

/-- The content of a property, if the part is one. -/
def Item.content? (t : Text) (i : Item) : Option (Text × Option Text) :=
  i.property?.map (Property.content t)

/-- Fragments do not matter to the content. -/
theorem Item.filterMap_content?_outline (t : Text) (is : List Item) :
    (is.map Item.outline).filterMap (content? t) = is.filterMap (content? t) := by
  have hsame : content? t ∘ Item.outline = content? t := by
    funext i
    rcases i with s | ⟨s, k, _ | ⟨o, _ | v⟩⟩ <;> rfl
  rw [List.filterMap_map, hsame]

theorem Tree.map_content_properties (tree : Tree) (t : Text) :
    tree.properties.map (Property.content t) = tree.items.filterMap (Item.content? t) :=
  List.map_filterMap

/-- The characters of a value, if there is one. -/
def Ending.content : Ending → Option Text
  | skipped _ => none
  | assigned _ _ _ value => value.map piecesText

/-- The characters of the key and of the value of a property. -/
def Block.contents : Block → List (Text × Option Text)
  | gap _ _ | comment _ => []
  | property key ending => [(key, ending.content)]

/-- The characters of the keys and values of a layout. -/
def Layout.contents (l : Layout) : List (Text × Option Text) := l.flatMap Block.contents

/-- What stands behind `u`. -/
theorem Text.slice_of_eq {t u w v : Text} {o : Nat} (ht : t = u ++ (w ++ v)) (ho : o = u.length) :
    t.slice ⟨o, o + w.length⟩ = w := by
  subst ht ho
  simp [slice, Span.length]

theorem Ending.content_property {t u v : Text} {key : Text} {ending : Ending}
    (ht : t = u ++ (key ++ ending.text ++ v)) :
    (ending.property u.length key).content t = (key, ending.content) := by
  have hkey : t.slice ⟨u.length, u.length + key.length⟩ = key :=
    Text.slice_of_eq (by rw [ht, List.append_assoc]) rfl
  rcases ending with rest | ⟨before, delimiter, behind, _ | ps⟩
  · exact Prod.ext hkey rfl
  · exact Prod.ext hkey rfl
  · refine Prod.ext hkey (congrArg some ?_)
    refine Text.slice_of_eq (u := u ++ key ++ before.text ++ delimiter :: behind.text) (v := v)
      ?_ ?_
    · simp [ht, Ending.text, valueText]
    · simp only [List.length_append, List.length_cons]
      omega

theorem Block.content_items {t u v : Text} {b : Block} (ht : t = u ++ (b.text ++ v)) :
    (b.items u.length).filterMap (Item.content? t) = b.contents := by
  cases b with
  | gap | comment => rfl
  | property key ending =>
    exact congrArg (fun x => [x]) (Ending.content_property ht)

/-- The keys and values of a layout hold the characters that they hold in the text around it. -/
theorem Layout.content_items {t v : Text} (l : Layout) :
    ∀ u : Text, t = u ++ (l.text ++ v) →
      (l.items u.length).filterMap (Item.content? t) = l.contents := by
  induction l with
  | nil => exact fun u _ => rfl
  | cons b l ih =>
    intro u ht
    have htext : t = u ++ (b.text ++ (Layout.text l ++ v)) := by
      simpa [Layout.text] using ht
    have hrest := ih (u ++ b.text) (by simpa using htext)
    rw [List.length_append] at hrest
    rw [Layout.items, layOut, List.filterMap_append, Block.content_items htext]
    exact congrArg (b.contents ++ ·) hrest

/-! ## Layouts for an outline -/

theorem outline_marksOf (es : List Event) : outline (marksOf es) = outline es := by
  rw [outline, marksOf, List.filter_filter]
  refine List.filter_congr fun e _ => ?_
  cases e <;> simp [isMark, isOutline]

namespace Layout

/-- The layout `l` behind `mark` has the characters and the outline of the text `t`. -/
structure Outlines (mark : Text) (l : Layout) (t : Text) : Prop where
  /-- No character is lost. -/
  text : t = mark ++ l.text
  /-- The constructs other than fragments start and stop where those of the layout do. -/
  events : outline (ofText t) =
    start .document 0 :: (outline (l.marks mark.length) ++ [stop .document t.length])

variable {mark : Text} {l : Layout} {t : Text}

theorem Describes.outlines (h : Describes mark l t) : Outlines mark l t where
  text := h.text
  events := by
    rw [← outline_marksOf, h.marks]
    exact congrArg (start .document 0 :: ·) (outline_append _ _)

theorem Outlines.items (h : Outlines mark l t) :
    (Tree.ofEvents (outline (ofText t))).items = (l.items mark.length).map Item.outline := by
  rw [h.events]
  simp [Tree.ofEvents, Draft.tree, Draft.add, Draft.items_foldl_outline]

/-- The properties of a text hold what the layout says. -/
theorem Outlines.contents (h : Outlines mark l t) :
    (Tree.ofEvents (ofText t)).properties.map (Property.content t) = l.contents := by
  obtain ⟨mark', l', h'⟩ := exists_describes t
  have hitems : (l'.items mark'.length).map Item.outline =
      (l.items mark.length).map Item.outline := by
    rw [← h'.outlines.items, h.items]
  calc (Tree.ofEvents (ofText t)).properties.map (Property.content t)
      = (l'.items mark'.length).filterMap (Item.content? t) := by
        rw [Tree.map_content_properties, h'.items]
    _ = (l.items mark.length).filterMap (Item.content? t) := by
        rw [← Item.filterMap_content?_outline, hitems, Item.filterMap_content?_outline]
    _ = l.contents := l.content_items mark (by rw [List.append_nil]; exact h.text)

end Layout

end DotProperties
