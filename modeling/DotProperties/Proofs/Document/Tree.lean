import DotProperties.Proofs.Document.Layout

/-!
# The tree of a layout

The tree of a text has the parts of its layout, each at its place (`Layout.Describes`). Only
marks matter to a tree under construction, so the reports between them can be left out
(`Draft.foldl_marksOf`), and the marks of a layout add its parts one by one
(`Draft.items_foldl_layout`).
-/

namespace DotProperties

open Event

/-! ## Parts at their place -/

/-- The fragments of a row of pieces. -/
def piecesFragments (o : Nat) (ps : List Piece) : List Fragment :=
  layOut Piece.text (fun o p => [⟨p.kind, o, o + p.text.length⟩]) o ps

/-- A row of pieces as a value. -/
def piecesValue (o : Nat) (ps : List Piece) : Value :=
  ⟨⟨o, o + (piecesText ps).length⟩, piecesFragments o ps⟩

/-- The delimiter and the value of an ending. -/
def Ending.assignment (o : Nat) : Ending → Option Assignment
  | skipped _ => none
  | assigned before _ behind value =>
    some ⟨o + before.text.length,
      value.map (piecesValue (o + before.text.length + 1 + behind.text.length))⟩

theorem Ending.add_length_assigned (o : Nat) (before : Spacing) (delimiter : Char)
    (behind : Spacing) (value : Option (List Piece)) :
    o + (assigned before delimiter behind value).text.length =
      o + before.text.length + 1 + behind.text.length + (valueText value).length := by
  simp only [text, List.length_append, List.length_cons]
  omega

/-- A key and what stands behind it as a property. -/
def Ending.property (o : Nat) (key : Text) (ending : Ending) : Property :=
  ⟨⟨o, o + key.length + ending.text.length⟩, ⟨o, o + key.length⟩,
    ending.assignment (o + key.length)⟩

/-- The part of a tree that a stretch is, if it is one. -/
def Block.items (o : Nat) : Block → List Item
  | gap _ _ => []
  | comment text => [.comment ⟨o, o + text.length⟩]
  | property key ending => [.property (ending.property o key)]

/-- The parts of a layout. -/
def Layout.items (o : Nat) (l : Layout) : List Item := layOut Block.text Block.items o l

/-! ## Trees under construction -/

namespace Draft

theorem add_of_not_isMark (d : Draft) {e : Event} (h : e.isMark = false) : d.add e = d := by
  cases e with
  | blankLine | invalid => rfl
  | start | stop | assign => simp [isMark] at h

/-- Reports do not matter. -/
theorem foldl_marksOf (es : List Event) (d : Draft) :
    (marksOf es).foldl add d = es.foldl add d := by
  induction es generalizing d with
  | nil => rfl
  | cons e es ih =>
    rw [List.foldl_cons, ← ih]
    by_cases h : e.isMark
    · simp [marksOf, h]
    · simp [marksOf, h, add_of_not_isMark]

theorem foldl_pieces (ps : List Piece) (o : Nat) (d : Draft) :
    ∃ leaf, (piecesMarks o ps).foldl add d =
      { d with leaf := leaf, fragments := (piecesFragments o ps).reverse ++ d.fragments } := by
  induction ps generalizing o d with
  | nil => exact ⟨d.leaf, rfl⟩
  | cons p ps ih =>
    obtain ⟨kind, w⟩ := p
    obtain ⟨leaf, h⟩ := ih (o + w.length)
      { d with leaf := o, fragments := ⟨kind, o, o + w.length⟩ :: d.fragments }
    refine ⟨leaf, ?_⟩
    cases kind <;> simpa [piecesMarks, piecesFragments, layOut, Piece.marks,
      FragmentKind.construct, add] using h

theorem items_foldl_value (value : Option (List Piece)) (o : Nat) (d : Draft)
    (hvalue : d.value = none) :
    ((valueMarks o value).foldl add d).items =
      .property ⟨⟨d.property, o + (valueText value).length⟩, d.key,
        d.assign.map fun a => ⟨a, value.map (piecesValue o)⟩⟩ :: d.items := by
  cases value with
  | none => simp [valueMarks, valueText, add, finishProperty, hvalue]
  | some ps =>
    obtain ⟨leaf, h⟩ := foldl_pieces ps o { d with valueStart := o, fragments := [] }
    simp [valueMarks, valueText, piecesValue, add, finishProperty, h]

/-- The marks of a stretch add the part that it is. -/
theorem items_foldl_block (b : Block) (o : Nat) (d : Draft) :
    ((b.marks o).foldl add d).items = (b.items o).reverse ++ d.items := by
  cases b with
  | gap | comment => rfl
  | property key ending =>
    cases ending with
    | skipped rest => rfl
    | assigned before delimiter behind value =>
      simp only [Block.marks, Ending.marks, List.foldl_cons, Block.items, Ending.property,
        Ending.add_length_assigned]
      exact items_foldl_value value _ _ rfl

/-- The marks of a layout add its parts. -/
theorem items_foldl_layout (l : Layout) (o : Nat) (d : Draft) :
    ((l.marks o).foldl add d).items = (l.items o).reverse ++ d.items := by
  induction l generalizing o d with
  | nil => rfl
  | cons b l ih =>
    simp only [Layout.marks, Layout.items] at ih ⊢
    simp only [layOut, List.foldl_append, List.reverse_append]
    rw [ih, items_foldl_block, List.append_assoc]

end Draft

/-! ## The tree of a text -/

namespace Layout

/-- The layout `l` behind the byte order mark `mark`, if it is one, is that of the text `t`. -/
structure Describes (mark : Text) (l : Layout) (t : Text) : Prop where
  /-- There is a byte order mark or nothing. -/
  byteOrderMark : mark = [] ∨ mark = ['\uFEFF']
  /-- No character is lost. -/
  text : t = mark ++ l.text
  /-- The constructs of the text start and stop where those of the layout do. -/
  marks : marksOf (ofText t) =
    start .document 0 :: (l.marks mark.length ++ [stop .document t.length])
  /-- The parts of the tree are those of the layout. -/
  items : (Tree.ofEvents (ofText t)).items = l.items mark.length

theorem exists_describes (t : Text) : ∃ mark l, Describes mark l t := by
  obtain ⟨mark, l, hmark, htext, hmarks⟩ := exists_of_text t
  refine ⟨mark, l, hmark, htext, hmarks, ?_⟩
  have h := Draft.foldl_marksOf (ofText t) {}
  rw [hmarks] at h
  rw [Tree.ofEvents, ← h]
  simp [Draft.tree, Draft.add, Draft.items_foldl_layout]

end Layout

end DotProperties
