import DotProperties.Document.Node
import DotProperties.Proofs.Document.Adjacency

/-!
# Where the nodes of a tree stand

The nodes of the tree of a text lie in the text, and the children of a node lie in it, one behind
the other (`Node.Fits`), so that no check of their places finds fault (`Tree.violation?_eq_none`).
The fragments of a value leave no gap between them, none of them is empty, and no two literals
meet (`Value.Tiled`). A property stands behind the end of the item before it (`Item.Apart`).

The places come from a layout of the text. What only the characters can tell, that a fragment has
some and that two items stand apart, comes from the marks : those of a text are the brackets
around the nodes of its tree (`Tree.marks_ofText`).
-/

namespace DotProperties

open Event

/-! ## Nodes below nodes -/

namespace Node

/-- How many levels there are below a node of this kind. -/
def depth : Node → Nat
  | document _ => 3
  | property _ => 2
  | value _ => 1
  | key _ | assign _ | fragment _ | comment _ => 0

theorem depth_lt_of_mem_children {n m : Node} (h : m ∈ n.children) : m.depth < n.depth := by
  cases n with
  | document t =>
    obtain ⟨i, -, rfl⟩ := List.mem_map.mp h
    cases i <;> simp [Item.node, depth]
  | property p =>
    rcases p with ⟨s, k, _ | ⟨o, _ | v⟩⟩ <;>
      simp only [children, Assignment.nodes, Option.toList_none, Option.toList_some,
        List.flatMap_nil, List.flatMap_cons, List.append_nil, List.map_nil, List.map_cons,
        List.mem_cons, List.not_mem_nil, or_false] at h
    · simp [h, depth]
    · rcases h with rfl | rfl <;> simp [depth]
    · rcases h with rfl | rfl | rfl <;> simp [depth]
  | value v =>
    obtain ⟨f, -, rfl⟩ := List.mem_map.mp h
    simp [depth]
  | key | assign | fragment | comment => exact nomatch h

theorem depth_le_three (n : Node) : n.depth ≤ 3 := by cases n <;> simp [depth]

/-- What holds of a node if it holds of its children holds of every node. -/
theorem children_induction {P : Node → Prop} (h : ∀ n : Node, (∀ m ∈ n.children, P m) → P n)
    (n : Node) : P n := by
  induction hd : n.depth using Nat.strong_induction_on generalizing n with
  | _ d ih => exact h n fun m hm => ih m.depth (hd ▸ depth_lt_of_mem_children hm) m rfl

/-- A function given by its values on children is the same however deep the recursion starts. -/
theorem iterate_eq {β : Type} {F : (Node → β) → Node → β}
    (hF : ∀ f g n, (∀ m ∈ n.children, f m = g m) → F f n = F g n) (f g : Node → β) :
    ∀ {k : Nat} {n : Node}, n.depth < k → (F^[k]) f n = (F^[k]) g n
  | k + 1, n, h => by
    rw [Function.iterate_succ_apply', Function.iterate_succ_apply']
    refine hF _ _ n fun m hm => iterate_eq hF f g ?_
    exact Nat.lt_of_lt_of_le (depth_lt_of_mem_children hm) (Nat.le_of_lt_succ h)

theorem iterate_four_eq {β : Type} {F : (Node → β) → Node → β}
    (hF : ∀ f g n, (∀ m ∈ n.children, f m = g m) → F f n = F g n) (f : Node → β) (n : Node) :
    F (F (F (F f))) n = F (F (F (F (F f)))) n :=
  iterate_eq hF f (F f) (Nat.lt_succ_of_le n.depth_le_three)

theorem flatMap_fragments {f : Node → List Node} (hf : ∀ x, f (fragment x) = [fragment x])
    (xs : List Fragment) : (xs.map fragment).flatMap f = xs.map fragment := by
  rw [List.flatMap_map, List.map_eq_flatMap]
  exact List.flatMap_congr fun x _ => hf x

theorem preorder_value (v : Value) : (value v).preorder = (value v).withChildren :=
  congrArg (value v :: ·) (flatMap_fragments (fun _ => rfl) v.fragments)

theorem preorder_property (p : Property) :
    (property p).preorder = property p :: (property p).children.flatMap withChildren := by
  rcases p with ⟨s, k, _ | ⟨o, _ | v⟩⟩
  · rfl
  · rfl
  · have hfragments := flatMap_fragments (f := withChildren) (fun _ => rfl) v.fragments
    simp [preorder, children, Assignment.nodes, withChildren, hfragments]

/-- The nodes below a node are its children, each in front of the nodes below it. -/
theorem preorder_eq (n : Node) : n.preorder = n :: n.children.flatMap preorder := by
  cases n with
  | document t =>
    refine congrArg (document t :: ·) (List.flatMap_congr fun m hm => ?_)
    obtain ⟨i, -, rfl⟩ := List.mem_map.mp hm
    cases i with
    | comment s => rfl
    | property p => exact (preorder_property p).symm
  | property p =>
    rw [preorder_property]
    rcases p with ⟨s, k, _ | ⟨o, _ | v⟩⟩
    · rfl
    · rfl
    · simp only [children, Assignment.nodes, Option.toList_some, List.flatMap_cons, preorder_value,
        List.flatMap_nil, List.map_cons, List.map_nil, List.cons_append]
      rfl
  | value v =>
    have hpreorder := flatMap_fragments (f := preorder) (fun _ => rfl) v.fragments
    rw [preorder_value]
    exact congrArg (value v :: ·) hpreorder.symm
  | key | assign | fragment | comment => rfl

/-- The nodes below a child are below the node. -/
theorem preorder_subset {n m : Node} (h : m ∈ n.children) : m.preorder ⊆ n.preorder := by
  rw [preorder_eq n]
  exact fun k hk => List.mem_cons_of_mem n (List.mem_flatMap.mpr ⟨m, h, hk⟩)

end Node

/-! ## Trees as brackets -/

/-- The construct that a node is. A delimiter is none. -/
def NodeKind.construct? : NodeKind → Option Construct
  | document => some .document
  | property => some .property
  | key => some .key
  | assign => none
  | value => some .value
  | literal => some .literal
  | expression => some .expression
  | comment => some .comment

namespace Node

/-- The marks of a node around those of its children, which `below` gives. -/
def marksWith (below : Node → List Event) (n : Node) : List Event :=
  match n.kind.construct? with
  | none => [Event.assign n.span.start]
  | some c => start c n.span.start :: (n.children.flatMap below ++ [stop c n.span.stop])

/-- The marks of a node and of all nodes below it. -/
def marks : Node → List Event := marksWith (marksWith (marksWith (marksWith fun _ => [])))

theorem marks_eq (n : Node) : n.marks = marksWith marks n := by
  refine iterate_four_eq (F := marksWith) (fun f g n h => ?_) _ n
  unfold marksWith
  rw [List.flatMap_congr h]

/-- Only a delimiter is no construct, and there is nothing below it. -/
theorem children_eq_nil {n : Node} (h : n.kind.construct? = none) : n.children = [] := by
  cases n with
  | assign => rfl
  | document | property | key | value | comment => exact nomatch h
  | fragment f => obtain ⟨_ | _, s⟩ := f <;> exact nomatch h

/-- The marks of a node stand in a row among those of any node above it. -/
theorem marks_within {n m : Node} (h : m ∈ n.preorder) : m.marks <:+: n.marks := by
  induction n using children_induction with
  | h n ih =>
    rw [preorder_eq] at h
    rcases List.mem_cons.mp h with rfl | h
    · exact List.infix_rfl
    · obtain ⟨child, hchild, hm⟩ := List.mem_flatMap.mp h
      obtain ⟨c, hc⟩ : ∃ c, n.kind.construct? = some c := by
        refine Option.ne_none_iff_exists'.mp fun hnone => ?_
        rw [children_eq_nil hnone] at hchild
        exact nomatch hchild
      have hbelow : child.marks <:+: n.children.flatMap marks :=
        List.infix_of_mem_flatten (List.mem_map_of_mem hchild)
      rw [marks_eq n, marksWith, hc]
      exact ((ih child hchild hm).trans hbelow).trans ⟨[_], [_], rfl⟩

/-- A node that is a construct starts and stops where its span does. -/
theorem bounds_mem_marks {n m : Node} (h : m ∈ n.preorder) {c : Construct}
    (hc : m.kind.construct? = some c) :
    start c m.span.start ∈ n.marks ∧ stop c m.span.stop ∈ n.marks := by
  have hsubset := (marks_within h).subset
  have hmarks : m.marks = start c m.span.start :: (m.children.flatMap marks ++
      [stop c m.span.stop]) := by
    rw [marks_eq, marksWith, hc]
  exact ⟨hsubset (by simp [hmarks]), hsubset (by simp [hmarks])⟩

theorem marks_fragment (f : Fragment) (below : Node → List Event) :
    marksWith below (fragment f) =
      [start f.kind.construct f.span.start, stop f.kind.construct f.span.stop] := by
  obtain ⟨_ | _, s⟩ := f <;> rfl

end Node

theorem piecesMarks_eq (o : Nat) (ps : List Piece) (below : Node → List Event) :
    piecesMarks o ps =
      ((piecesFragments o ps).map Node.fragment).flatMap (Node.marksWith below) := by
  induction ps generalizing o with
  | nil => rfl
  | cons p ps ih =>
    have hfragments : piecesFragments o (p :: ps) =
        ⟨p.kind, o, o + p.text.length⟩ :: piecesFragments (o + p.text.length) ps := rfl
    rw [hfragments, List.map_cons, List.flatMap_cons, Node.marks_fragment, ← ih]
    rfl

/-- The marks of an item and of all nodes below it. -/
def Item.marks (i : Item) : List Event :=
  i.node.marksWith (Node.marksWith (Node.marksWith fun _ => []))

theorem Block.marks_eq (b : Block) (o : Nat) : b.marks o = (b.items o).flatMap Item.marks := by
  cases b with
  | gap | comment => rfl
  | property key ending =>
    rcases ending with rest | ⟨before, delimiter, behind, _ | ps⟩
    · rfl
    · have hstop := Ending.add_length_assigned (o + key.length) before delimiter behind none
      simp [marks, Ending.marks, valueMarks, items, Ending.property, hstop, valueText, Item.marks,
        Item.node, Node.marksWith, Node.kind, NodeKind.construct?, Node.children, Ending.assignment,
        Assignment.nodes, Node.span, Assignment.span, Span.single]
    · have hstop := Ending.add_length_assigned (o + key.length) before delimiter behind (some ps)
      have hpieces := piecesMarks_eq
        (o + key.length + before.text.length + 1 + behind.text.length) ps fun _ => []
      simp [marks, Ending.marks, valueMarks, items, Ending.property, hstop, valueText, Item.marks,
        Item.node, Node.marksWith, Node.kind, NodeKind.construct?, Node.children, Ending.assignment,
        Assignment.nodes, Node.span, Assignment.span, Span.single, piecesValue, hpieces]

theorem Layout.marks_eq (l : Layout) (o : Nat) : l.marks o = (l.items o).flatMap Item.marks := by
  induction l generalizing o with
  | nil => rfl
  | cons b l ih =>
    simp only [Layout.marks, Layout.items] at ih ⊢
    rw [layOut, layOut, List.flatMap_append, ← ih, Block.marks_eq]

theorem Layout.Describes.span {mark t : Text} {l : Layout} (h : Describes mark l t) :
    (Tree.ofEvents (ofText t)).span = ⟨0, t.length⟩ := by
  have hfold := Draft.foldl_marksOf (ofText t) {}
  rw [h.marks] at hfold
  rw [Tree.ofEvents, ← hfold]
  simp [Draft.tree, Draft.add]

/-- The marks of a text are the brackets around the nodes of its tree. -/
theorem Tree.marks_ofText (t : Text) :
    marksOf (ofText t) = (Node.document (Tree.ofEvents (ofText t))).marks := by
  obtain ⟨mark, l, h⟩ := Layout.exists_describes t
  have hitems := h.items
  have hspan := h.span
  rw [h.marks, Layout.marks_eq, ← hitems]
  generalize Tree.ofEvents (ofText t) = tree at hspan ⊢
  simp only [Node.marks, Node.marksWith, Node.kind, NodeKind.construct?, Node.span, hspan,
    Node.children, List.flatMap_map]
  rfl

/-- A node of a text that is a construct starts and stops where its span does. -/
theorem Tree.bounds_mem_ofText {t : Text} {n : Node} (h : n ∈ (Tree.ofEvents (ofText t)).nodes)
    {c : Construct} (hc : n.kind.construct? = some c) :
    start c n.span.start ∈ ofText t ∧ stop c n.span.stop ∈ ofText t := by
  have hbounds := Node.bounds_mem_marks h hc
  rw [← marks_ofText] at hbounds
  exact hbounds.imp List.mem_of_mem_filter List.mem_of_mem_filter

/-! ## Items apart -/

/-- The second of two items in a row, if it is a property, starts behind the end of the first. -/
def Item.Apart (i : Item) : Item → Prop
  | comment _ => True
  | property p => i.span.stop < p.span.start

theorem Item.getLast?_marks (i : Item) :
    ∃ c, (c = .property ∨ c = .comment) ∧ i.marks.getLast? = some (stop c i.span.stop) := by
  cases i with
  | comment s => exact ⟨.comment, Or.inr rfl, rfl⟩
  | property p =>
    exact ⟨.property, Or.inl rfl, List.getLast?_concat (l := start .property p.span.start :: _)⟩

theorem Item.apart_of_isChain {is : List Item} (h : (is.flatMap marks).IsChain Precedes) :
    is.IsChain Apart := by
  induction is with
  | nil => exact .nil
  | cons i is ih =>
    rw [List.flatMap_cons] at h
    obtain ⟨-, hrest, hmeet⟩ := List.isChain_append.mp h
    refine List.isChain_cons.mpr ⟨fun j hj => ?_, ih hrest⟩
    cases j with
    | comment s => trivial
    | property p =>
      obtain ⟨c, hc, hlast⟩ := i.getLast?_marks
      have hfirst : (is.flatMap marks).head? = some (start .property p.span.start) := by
        obtain ⟨is, rfl⟩ : ∃ is', is = property p :: is' := List.head?_eq_some_iff.mp hj
        rfl
      have hprecedes := hmeet _ hlast _ hfirst
      rcases hc with rfl | rfl <;> exact hprecedes

/-- The properties of a text stand apart from the items before them. -/
theorem Tree.items_apart (t : Text) : (Tree.ofEvents (ofText t)).items.IsChain Item.Apart := by
  obtain ⟨mark, l, h⟩ := Layout.exists_describes t
  have hchain := isChain_ofText t
  rw [h.marks, Layout.marks_eq, ← h.items] at hchain
  have hwithin : (Tree.ofEvents (ofText t)).items.flatMap Item.marks <:+:
      start .document 0 :: ((Tree.ofEvents (ofText t)).items.flatMap Item.marks ++
        [stop .document t.length]) := ⟨[start .document 0], [stop .document t.length], by simp⟩
  refine Item.apart_of_isChain ?_
  exact List.IsChain.infix hchain hwithin

/-! ## Nodes in a row -/

/-- The nodes lie between the two offsets, one behind the other. -/
def Node.Row (hi : Nat) : Nat → List Node → Prop
  | lo, [] => lo ≤ hi
  | lo, n :: ns => lo ≤ n.span.start ∧ n.span.start ≤ n.span.stop ∧ Row hi n.span.stop ns

/-- The node lies in a text of `length` characters, and its children lie in it in a row. -/
structure Node.Fits (length : Nat) (n : Node) : Prop where
  /-- Its ends are in order. -/
  ordered : n.span.start ≤ n.span.stop
  /-- It does not leave the text. -/
  within : n.span.stop ≤ length
  /-- Its children lie in it in a row. -/
  children : Row n.span.stop n.span.start n.children

namespace Node

theorem Row.le : ∀ {lo hi : Nat} {ns : List Node}, Row hi lo ns → lo ≤ hi
  | _, _, [], h => h
  | _, _, _ :: _, h => Nat.le_trans h.1 (Nat.le_trans h.2.1 h.2.2.le)

theorem Row.weaken {lo lo' hi : Nat} {ns : List Node} (hlo : lo' ≤ lo) (h : Row hi lo ns) :
    Row hi lo' ns := by
  cases ns with
  | nil => exact Nat.le_trans hlo h
  | cons n ns => exact ⟨Nat.le_trans hlo h.1, h.2⟩

theorem Row.append : ∀ {lo mid hi : Nat} {ns ns' : List Node},
    Row mid lo ns → Row hi mid ns' → Row hi lo (ns ++ ns')
  | _, _, _, [], _, h, h' => h'.weaken h
  | _, _, _, _ :: _, _, h, h' => ⟨h.1, h.2.1, h.2.2.append h'⟩

/-- A node of a row lies between the two offsets. -/
theorem Row.bounds : ∀ {lo hi : Nat} {ns : List Node}, Row hi lo ns → ∀ n ∈ ns,
    lo ≤ n.span.start ∧ n.span.start ≤ n.span.stop ∧ n.span.stop ≤ hi
  | _, _, _ :: _, h, n, hn => by
    obtain ⟨hlo, hordered, hrest⟩ := h
    rcases List.mem_cons.mp hn with rfl | hn
    · exact ⟨hlo, hordered, hrest.le⟩
    · obtain ⟨hstart, hrest⟩ := hrest.bounds n hn
      exact ⟨by omega, hrest⟩

theorem Row.misplacedChild?_eq_none : ∀ {lo hi : Nat} {ns : List Node} (number : Nat),
    Row hi lo ns → misplacedChild? hi lo number ns = none
  | _, _, [], _, _ => rfl
  | lo, hi, n :: ns, number, h => by
    have hstart : ¬n.span.start < lo := Nat.not_lt.mpr h.1
    have hstop : ¬hi < n.span.stop := Nat.not_lt.mpr h.2.2.le
    simp only [misplacedChild?, hstart, hstop, decide_false, Bool.or_false, Bool.false_eq_true,
      if_false]
    exact h.2.2.misplacedChild?_eq_none _

theorem Fits.violation?_eq_none {length : Nat} {n : Node} (h : n.Fits length) (number : Nat) :
    n.violation? length number = none := by
  have hstart : ¬n.span.stop < n.span.start := Nat.not_lt.mpr h.ordered
  have hstop : ¬length < n.span.stop := Nat.not_lt.mpr h.within
  simp only [violation?, hstart, hstop, decide_false, Bool.or_false, Bool.false_eq_true, if_false]
  exact h.children.misplacedChild?_eq_none _

/-- A node without children fits where it lies. -/
theorem Fits.leaf {length : Nat} {n : Node} (hchildren : n.children = [])
    (hordered : n.span.start ≤ n.span.stop) (hwithin : n.span.stop ≤ length) : n.Fits length :=
  ⟨hordered, hwithin, by rw [hchildren]; exact hordered⟩

end Node

/-! ## The nodes of a layout -/

theorem row_fragments (o : Nat) (ps : List Piece) :
    Node.Row (o + (piecesText ps).length) o ((piecesFragments o ps).map Node.fragment) := by
  induction ps generalizing o with
  | nil => exact Nat.le_refl o
  | cons p ps ih =>
    refine ⟨Nat.le_refl o, Nat.le_add_right o _, ?_⟩
    have hlen : o + (piecesText (p :: ps)).length =
        o + p.text.length + (piecesText ps).length := by
      simp only [piecesText, List.flatMap_cons, List.length_append]
      omega
    rw [hlen]
    exact ih (o + p.text.length)

theorem fits_fragments {o length : Nat} {ps : List Piece}
    (h : o + (piecesText ps).length ≤ length) :
    ∀ f ∈ piecesFragments o ps, (Node.fragment f).Fits length := by
  induction ps generalizing o with
  | nil => exact nofun
  | cons p ps ih =>
    have hlen : o + (piecesText (p :: ps)).length =
        o + p.text.length + (piecesText ps).length := by
      simp only [piecesText, List.flatMap_cons, List.length_append]
      omega
    rw [hlen] at h
    refine List.forall_mem_cons.mpr ⟨.leaf rfl (Nat.le_add_right o _) ?_, ih h⟩
    exact Nat.le_trans (Nat.le_add_right _ _) h

/-- A value with its fragments lies where its pieces do. -/
theorem fits_value {o length : Nat} {ps : List Piece} (h : o + (piecesText ps).length ≤ length) :
    ∀ n ∈ (Node.value (piecesValue o ps)).preorder, n.Fits length := by
  rw [Node.preorder_value]
  refine List.forall_mem_cons.mpr ⟨⟨Nat.le_add_right o _, h, row_fragments o ps⟩, ?_⟩
  exact List.forall_mem_map.mpr (fits_fragments h)

/-- The parts of a property lie in it in a row. -/
theorem Ending.row_property (o : Nat) (key : Text) (ending : Ending) :
    Node.Row (o + key.length + ending.text.length) o
      (Node.property (ending.property o key)).children := by
  rcases ending with rest | ⟨before, delimiter, behind, _ | ps⟩
  · exact ⟨Nat.le_refl o, Nat.le_add_right o _, Nat.le_add_right _ _⟩
  · rw [add_length_assigned]
    refine ⟨Nat.le_refl o, Nat.le_add_right o _, Nat.le_add_right _ _, Nat.le_succ _, ?_⟩
    exact Nat.le_add_right_of_le (Nat.le_add_right _ _)
  · rw [add_length_assigned]
    refine ⟨Nat.le_refl o, Nat.le_add_right o _, Nat.le_add_right _ _, Nat.le_succ _, ?_⟩
    exact ⟨Nat.le_add_right _ _, Nat.le_add_right _ _, Nat.le_refl _⟩

/-- The nodes of a property lie in it. -/
theorem Ending.fits_property {o length : Nat} {key : Text} {ending : Ending}
    (h : o + key.length + ending.text.length ≤ length) :
    ∀ n ∈ (Node.property (ending.property o key)).preorder, n.Fits length := by
  have hproperty : (Node.property (ending.property o key)).Fits length :=
    ⟨(row_property o key ending).le, h, row_property o key ending⟩
  have hkey : (Node.key ⟨o, o + key.length⟩).Fits length :=
    .leaf rfl (Nat.le_add_right o _) (Nat.le_trans (Nat.le_add_right _ _) h)
  rw [Node.preorder_eq]
  refine List.forall_mem_cons.mpr ⟨hproperty, ?_⟩
  rcases ending with rest | ⟨before, delimiter, behind, value⟩
  · simpa [Node.children, Ending.property, Ending.assignment, Node.preorder] using hkey
  · rw [add_length_assigned] at h
    have hassign : ∀ v, (Node.assign ⟨o + key.length + before.text.length, v⟩).Fits length := by
      intro v
      refine .leaf rfl (Nat.le_succ _) ?_
      exact Nat.le_trans (Nat.le_add_right_of_le (Nat.le_add_right _ _)) h
    cases value with
    | none =>
      simpa [Node.children, Ending.property, Ending.assignment, Assignment.nodes, Node.preorder]
        using ⟨hkey, hassign none⟩
    | some ps =>
      have hvalue : ∀ n ∈ (Node.value (piecesValue _ ps)).preorder, n.Fits length := fits_value h
      simp only [Node.children, Ending.property, Ending.assignment, Assignment.nodes,
        Option.toList_some, Option.map_some, List.flatMap_cons, List.flatMap_nil, List.map_cons,
        List.map_nil, List.append_nil, List.mem_append]
      rintro n (hn | hn | hn)
      · rw [List.mem_singleton.mp hn]
        exact hkey
      · rw [List.mem_singleton.mp hn]
        exact hassign _
      · exact hvalue n hn

theorem Block.row_items (b : Block) (o : Nat) :
    Node.Row (o + b.text.length) o ((b.items o).map Item.node) := by
  cases b with
  | gap => exact Nat.le_add_right o _
  | comment => exact ⟨Nat.le_refl o, Nat.le_add_right o _, Nat.le_refl _⟩
  | property key ending =>
    have hstop : o + (property key ending).text.length = o + key.length + ending.text.length := by
      simp only [text, List.length_append]
      omega
    rw [hstop]
    exact ⟨Nat.le_refl o, (ending.row_property o key).le, Nat.le_refl _⟩

theorem Block.fits_items {b : Block} {o length : Nat} (h : o + b.text.length ≤ length) :
    ∀ i ∈ b.items o, ∀ n ∈ i.node.preorder, n.Fits length := by
  cases b with
  | gap => exact nofun
  | comment text =>
    simpa [items, Item.node, Node.preorder, Node.children] using
      Node.Fits.leaf (n := .comment ⟨o, o + text.length⟩) rfl (Nat.le_add_right o _) h
  | property key ending =>
    have hproperty : o + key.length + ending.text.length ≤ length := by
      simp only [text, List.length_append] at h
      omega
    simpa [items, Item.node] using Ending.fits_property hproperty

namespace Layout

theorem row_items (l : Layout) (o : Nat) :
    Node.Row (o + l.text.length) o ((l.items o).map Item.node) := by
  induction l generalizing o with
  | nil => exact Nat.le_refl o
  | cons b l ih =>
    have hitems : items o (b :: l) = b.items o ++ items (o + b.text.length) l := rfl
    have hstop : o + (text (b :: l)).length = o + b.text.length + (text l).length := by
      simp only [text, List.flatMap_cons, List.length_append]
      omega
    rw [hitems, hstop, List.map_append]
    exact (b.row_items o).append (ih (o + b.text.length))

theorem fits_items {l : Layout} {o length : Nat} (h : o + l.text.length ≤ length) :
    ∀ i ∈ l.items o, ∀ n ∈ i.node.preorder, n.Fits length := by
  intro i hi
  obtain ⟨bs, b, bs', rfl, hb⟩ := mem_layOut hi
  refine Block.fits_items (Nat.le_trans ?_ h) i hb
  simp only [text, List.flatMap_append, List.flatMap_cons, List.length_append]
  omega

end Layout

namespace Tree

/-- The nodes of a text lie in it, and the children of each of them lie in it in a row. -/
theorem fits_ofText (t : Text) : ∀ n ∈ (ofEvents (ofText t)).nodes, n.Fits t.length := by
  obtain ⟨mark, l, h⟩ := Layout.exists_describes t
  have hlength : mark.length + l.text.length = t.length := by
    rw [h.text, List.length_append]
  have hrow := l.row_items mark.length
  rw [nodes, Node.preorder_eq]
  refine List.forall_mem_cons.mpr ⟨⟨?_, ?_, ?_⟩, ?_⟩
  · simp [Node.span, h.span]
  · simp [Node.span, h.span]
  · simp only [Node.span, h.span, Node.children, h.items]
    rw [hlength] at hrow
    exact hrow.weaken (Nat.zero_le _)
  · intro n hn
    obtain ⟨m, hm, hn⟩ := List.mem_flatMap.mp hn
    simp only [Node.children, h.items] at hm
    obtain ⟨i, hi, rfl⟩ := List.mem_map.mp hm
    exact Layout.fits_items (Nat.le_of_eq hlength) i hi n hn

/-- No node of a text is out of place. -/
theorem violation?_ofText (t : Text) : (ofEvents (ofText t)).violation? t.length = none := by
  refine List.findSome?_eq_none_iff.mpr fun ⟨n, number⟩ hn => ?_
  exact (fits_ofText t n (List.fst_mem_of_mem_zipIdx hn)).violation?_eq_none number

end Tree

/-! ## Fragments without gaps -/

/-- The fragments have some characters each and stand from the offset on up to `stop` without a
gap. -/
def Fragment.Tile (stop : Nat) : Nat → List Fragment → Prop
  | o, [] => o = stop
  | o, f :: fs => f.span.start = o ∧ o < f.span.stop ∧ Tile stop f.span.stop fs

/-- Not both fragments are literals. -/
def Fragment.Meet (f g : Fragment) : Prop := ¬(f.kind = .literal ∧ g.kind = .literal)

/-- The fragments of a value make it up. -/
structure Value.Tiled (v : Value) : Prop where
  /-- They fill it without a gap. -/
  tile : Fragment.Tile v.span.stop v.span.start v.fragments
  /-- There are none only where there is nothing to fill. -/
  nil_iff : v.fragments = [] ↔ v.span.start = v.span.stop
  /-- No two literals stand next to each other. -/
  meet : v.fragments.IsChain Fragment.Meet

theorem Fragment.Tile.le : ∀ {o stop : Nat} {fs : List Fragment}, Tile stop o fs → o ≤ stop
  | _, _, [], h => Nat.le_of_eq h
  | _, _, _ :: _, h => Nat.le_trans (Nat.le_of_lt h.2.1) h.2.2.le

/-- Fragments without a gap lie between the two offsets. -/
theorem Fragment.Tile.bounds : ∀ {o stop : Nat} {fs : List Fragment}, Tile stop o fs →
    ∀ f ∈ fs, o ≤ f.span.start ∧ f.span.start ≤ f.span.stop ∧ f.span.stop ≤ stop
  | _, _, [], _ => nofun
  | _, _, g :: gs, h => by
    obtain ⟨hstart, hlt, hrest⟩ := h
    refine List.forall_mem_cons.mpr ⟨?_, fun f hf => ?_⟩
    · exact ⟨Nat.le_of_eq hstart.symm, hstart ▸ Nat.le_of_lt hlt, hrest.le⟩
    · obtain ⟨hle, hbounds⟩ := hrest.bounds f hf
      exact ⟨Nat.le_trans (Nat.le_of_lt hlt) hle, hbounds⟩

theorem Fragment.Tile.nil_iff {o stop : Nat} {fs : List Fragment} (h : Tile stop o fs) :
    fs = [] ↔ o = stop := by
  cases fs with
  | nil => exact iff_of_true rfl h
  | cons f fs => exact iff_of_false nofun (Nat.ne_of_lt (Nat.lt_of_lt_of_le h.2.1 h.2.2.le))

theorem tile_fragments {o : Nat} {ps : List Piece} (h : (piecesMarks o ps).IsChain Precedes) :
    Fragment.Tile (o + (piecesText ps).length) o (piecesFragments o ps) := by
  induction ps generalizing o with
  | nil => rfl
  | cons p ps ih =>
    obtain ⟨hlt, hrest⟩ := List.isChain_cons_cons.mp h
    have hlen : o + (piecesText (p :: ps)).length =
        o + p.text.length + (piecesText ps).length := by
      simp only [piecesText, List.flatMap_cons, List.length_append]
      omega
    rw [hlen]
    refine ⟨rfl, ?_, ih hrest.tail⟩
    obtain ⟨_ | _, w⟩ := p <;> exact hlt

theorem meet_fragments {o : Nat} {ps : List Piece} (h : (piecesMarks o ps).IsChain Precedes) :
    (piecesFragments o ps).IsChain Fragment.Meet := by
  induction ps generalizing o with
  | nil => exact .nil
  | cons p ps ih =>
    have hrest := (List.isChain_cons_cons.mp h).2
    cases ps with
    | nil => exact .singleton _
    | cons q ps =>
      have hnext := (List.isChain_cons_cons.mp hrest).1
      refine List.isChain_cons_cons.mpr ⟨?_, ih hrest.tail⟩
      obtain ⟨_ | _, w⟩ := p
      · obtain ⟨_ | _, w'⟩ := q
        · exact hnext.elim
        · exact fun hliteral => nomatch hliteral.2
      · exact fun hliteral => nomatch hliteral.1

theorem tiled_pieces {o : Nat} {ps : List Piece} (h : (piecesMarks o ps).IsChain Precedes) :
    (piecesValue o ps).Tiled :=
  ⟨tile_fragments h, (tile_fragments h).nil_iff, meet_fragments h⟩

/-- The pieces of a value give marks among those of the layout that it is part of, and stop where
the property does. -/
theorem Layout.exists_pieces {l : Layout} {o : Nat} {p : Property} {v : Value}
    (hp : .property p ∈ l.items o) (hv : p.value? = some v) :
    ∃ o' ps, v = piecesValue o' ps ∧ piecesMarks o' ps <:+: l.marks o ∧
      o' + (piecesText ps).length = p.span.stop := by
  obtain ⟨bs, b, bs', rfl, hb⟩ := mem_layOut hp
  have hwithin : b.marks (o + (bs.flatMap Block.text).length) <:+: marks o (bs ++ b :: bs') := by
    rw [marks, layOut_append, layOut, ← List.append_assoc]
    exact ⟨_, _, rfl⟩
  rcases b with _ | _ | ⟨key, rest | ⟨before, delimiter, behind, _ | ps⟩⟩
  · simp [Block.items] at hb
  · simp [Block.items] at hb
  · obtain rfl := Item.property.inj (List.mem_singleton.mp hb)
    simp [Property.value?, Ending.property, Ending.assignment] at hv
  · obtain rfl := Item.property.inj (List.mem_singleton.mp hb)
    simp [Property.value?, Ending.property, Ending.assignment] at hv
  · obtain rfl := Item.property.inj (List.mem_singleton.mp hb)
    refine ⟨_, ps, (Option.some.inj hv).symm, .trans ?_ hwithin, ?_⟩
    · exact ⟨[_, _, _, _, _], [_, _], rfl⟩
    · exact (Ending.add_length_assigned _ before delimiter behind (some ps)).symm

/-- The nodes of a tree below its items are parts of its properties. -/
theorem Tree.mem_nodes_iff {t : Tree} {n : Node} : n ∈ t.nodes ↔
    n = .document t ∨ (∃ i ∈ t.items, n = i.node) ∨ ∃ p, .property p ∈ t.items ∧
      (n = .key p.key ∨ (∃ a, p.assignment = some a ∧ n = .assign a) ∨
        ∃ v, p.value? = some v ∧ (n = .value v ∨ ∃ f ∈ v.fragments, n = .fragment f)) := by
  have hitem : ∀ i : Item, n ∈ i.node.preorder ↔ n = i.node ∨ ∃ p, i = .property p ∧
      (n = .key p.key ∨ (∃ a, p.assignment = some a ∧ n = .assign a) ∨
        ∃ v, p.value? = some v ∧ (n = .value v ∨ ∃ f ∈ v.fragments, n = .fragment f)) := by
    rintro (s | ⟨s, k, _ | ⟨o, _ | v⟩⟩) <;>
      simp [Item.node, Node.preorder, Node.children, Assignment.nodes, Node.withChildren,
        Property.value?, eq_comm]
  rw [nodes, Node.preorder_eq, List.mem_cons, List.mem_flatMap]
  simp only [Node.children, List.mem_map, exists_exists_and_eq_and, hitem]
  constructor
  · rintro (rfl | ⟨i, hi, rfl | ⟨p, rfl, hp⟩⟩)
    · exact Or.inl rfl
    · exact Or.inr (Or.inl ⟨i, hi, rfl⟩)
    · exact Or.inr (Or.inr ⟨p, hi, hp⟩)
  · rintro (rfl | ⟨i, hi, rfl⟩ | ⟨p, hi, hp⟩)
    · exact Or.inl rfl
    · exact Or.inr ⟨i, hi, Or.inl rfl⟩
    · exact Or.inr ⟨.property p, hi, Or.inr ⟨p, rfl, hp⟩⟩

/-- A key, a value or a fragment of a tree is part of one of its properties. -/
theorem Tree.exists_property_of_part {t : Tree} {n : Node} (h : n ∈ t.nodes)
    (hkind : n.kind ∈ [.key, .value, .literal, .expression]) :
    ∃ p, .property p ∈ t.items ∧ (n = .key p.key ∨
      ∃ v, p.value? = some v ∧ (n = .value v ∨ ∃ f ∈ v.fragments, n = .fragment f)) := by
  rcases mem_nodes_iff.mp h with rfl | ⟨_ | _, -, rfl⟩ | ⟨p, hp, hn | ⟨a, -, rfl⟩ | hn⟩
  · simp [Node.kind] at hkind
  · simp [Item.node, Node.kind] at hkind
  · simp [Item.node, Node.kind] at hkind
  · exact ⟨p, hp, Or.inl hn⟩
  · simp [Node.kind] at hkind
  · exact ⟨p, hp, Or.inr hn⟩

/-- The fragments of the value of a property make it up. -/
theorem Tree.tiled_value {t : Text} {p : Property} {v : Value}
    (hp : .property p ∈ (ofEvents (ofText t)).items) (hv : p.value? = some v) : v.Tiled := by
  obtain ⟨mark, l, hl⟩ := Layout.exists_describes t
  rw [hl.items] at hp
  obtain ⟨o, ps, rfl, hwithin, -⟩ := Layout.exists_pieces hp hv
  have hchain := isChain_ofText t
  rw [hl.marks] at hchain
  refine tiled_pieces ?_
  exact List.IsChain.infix hchain (hwithin.trans ⟨[_], [_], rfl⟩)

/-- A property stops where its value does. -/
theorem Tree.stop_value {t : Text} {p : Property} {v : Value}
    (hp : .property p ∈ (ofEvents (ofText t)).items) (hv : p.value? = some v) :
    v.span.stop = p.span.stop := by
  obtain ⟨mark, l, hl⟩ := Layout.exists_describes t
  rw [hl.items] at hp
  obtain ⟨o, ps, rfl, -, hstop⟩ := Layout.exists_pieces hp hv
  exact hstop

/-- The fragments of a value of a text make it up. -/
theorem Tree.tiled_ofText (t : Text) {v : Value} (h : .value v ∈ (ofEvents (ofText t)).nodes) :
    v.Tiled := by
  obtain ⟨p, hp, hkey | ⟨w, hw, hvalue | ⟨f, -, hfragment⟩⟩⟩ :=
    exists_property_of_part h (by simp [Node.kind])
  · exact nomatch hkey
  · obtain rfl := Node.value.inj hvalue
    exact tiled_value hp hw
  · exact nomatch hfragment

end DotProperties
