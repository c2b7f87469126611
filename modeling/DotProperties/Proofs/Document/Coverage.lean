import DotProperties.Document.Basic
import DotProperties.Document.Node
import DotProperties.Proofs.Document.Tree

/-!
# Coverage

The leaves of a tree are its comments, keys, delimiters and fragments. Together they hold every
character of the text once, apart from spacing and line terminators between them, a byte order
mark, and what is skipped behind a key without a delimiter (`Document.leaves_cover`).

`Covers` says so of a stretch of the text and the spans in it, and stretches that meet can be put
together (`Covers.append`). So it is enough to look at the parts of a layout one by one.
-/

namespace DotProperties

/-- `i` is in the span. -/
def Span.holds (s : Span) (i : Nat) : Bool := s.start ≤ i && i < s.stop

theorem Span.holds_iff {s : Span} {i : Nat} : s.holds i = true ↔ s.start ≤ i ∧ i < s.stop := by
  simp [holds]

/-! ## Stretches and their spans -/

/-- The spans `ss` in the text `t`, which stands at the offset `o`, hold every character at most
once, and every character that is not spared. -/
structure Covers (spared : Nat → Char → Prop) (o : Nat) (t : Text) (ss : List Span) : Prop where
  /-- The spans lie in the text. -/
  within : ∀ s ∈ ss, o ≤ s.start ∧ s.stop ≤ o + t.length
  /-- No character is in two of them. -/
  once : ∀ i, ss.countP (·.holds i) ≤ 1
  /-- A character in none of them is spared. -/
  complete : ∀ i c, t[i]? = some c → (∀ s ∈ ss, s.holds (o + i) = false) → spared (o + i) c

namespace Covers

variable {spared : Nat → Char → Prop} {o : Nat} {t t' : Text} {ss ss' : List Span}

/-- Characters that are all spared. -/
theorem nil (h : ∀ i c, t[i]? = some c → spared (o + i) c) : Covers spared o t [] where
  within := by simp
  once := by simp
  complete i c hi _ := h i c hi

/-- A text that is one span. -/
theorem single (o : Nat) (t : Text) : Covers spared o t [⟨o, o + t.length⟩] where
  within := by simp
  once i := by
    rw [List.countP_singleton]
    split <;> omega
  complete i c hi h := by
    have hlt : i < t.length := (List.getElem?_eq_some_iff.mp hi).1
    have := h ⟨o, o + t.length⟩ (by simp)
    simp [Span.holds] at this
    omega

theorem countP_of_lt (h : Covers spared o t ss) {i : Nat} (hi : i < o) :
    ss.countP (·.holds i) = 0 := by
  refine List.countP_eq_zero.mpr fun s hs hhold => ?_
  have := h.within s hs
  rw [Span.holds_iff] at hhold
  omega

theorem countP_of_le (h : Covers spared o t ss) {i : Nat} (hi : o + t.length ≤ i) :
    ss.countP (·.holds i) = 0 := by
  refine List.countP_eq_zero.mpr fun s hs hhold => ?_
  have := h.within s hs
  rw [Span.holds_iff] at hhold
  omega

/-- Two stretches that meet. -/
theorem append (h : Covers spared o t ss) (h' : Covers spared (o + t.length) t' ss') :
    Covers spared o (t ++ t') (ss ++ ss') where
  within s hs := by
    rw [List.length_append]
    rcases List.mem_append.mp hs with hs | hs
    · have := h.within s hs
      omega
    · have := h'.within s hs
      omega
  once i := by
    rw [List.countP_append]
    rcases Nat.lt_or_ge i (o + t.length) with hi | hi
    · rw [h'.countP_of_lt hi]
      exact h.once i
    · rw [h.countP_of_le hi, Nat.zero_add]
      exact h'.once i
  complete i c hi hnone := by
    rw [List.forall_mem_append] at hnone
    rcases Nat.lt_or_ge i t.length with hlt | hge
    · rw [List.getElem?_append_left hlt] at hi
      exact h.complete i c hi hnone.1
    · rw [List.getElem?_append_right hge] at hi
      have hoffset : o + t.length + (i - t.length) = o + i := by omega
      rw [← hoffset] at hnone ⊢
      exact h'.complete (i - t.length) c hi hnone.2

end Covers

/-! ## Leaves -/

namespace Node

/-- The node is a comment, a key, a delimiter or a fragment. -/
def isLeaf : Node → Bool
  | key _ | assign _ | fragment _ | comment _ => true
  | document _ | property _ | value _ => false

end Node

/-- The leaves of a tree, in order. -/
def Tree.leaves (t : Tree) : List Node := t.nodes.filter Node.isLeaf

/-- The spans of the leaves of a property behind its key. -/
def Assignment.leafSpans (a : Assignment) : List Span :=
  a.span :: (a.value.map fun v => v.fragments.map Fragment.span).getD []

/-- The spans of the leaves of a part. -/
def Item.leafSpans : Item → List Span
  | comment s => [s]
  | property p => p.key :: (p.assignment.map Assignment.leafSpans).getD []

theorem Item.leaves_span (i : Item) :
    ((i.node :: i.node.children.flatMap Node.withChildren).filter Node.isLeaf).map Node.span =
      i.leafSpans := by
  rcases i with s | ⟨s, k, _ | ⟨o, _ | v⟩⟩
  · rfl
  · rfl
  · rfl
  · have hleaves : (v.fragments.map Node.fragment).filter Node.isLeaf =
        v.fragments.map Node.fragment := List.filter_eq_self.mpr (by simp [Node.isLeaf])
    simp [node, leafSpans, Assignment.leafSpans, Assignment.nodes, Node.children,
      Node.withChildren, Node.isLeaf, Node.span, List.filter_cons, hleaves]

theorem Tree.leaves_span (t : Tree) :
    t.leaves.map Node.span = t.items.flatMap Item.leafSpans := by
  have hnodes : t.leaves = t.items.flatMap fun i =>
      (i.node :: i.node.children.flatMap Node.withChildren).filter Node.isLeaf := by
    simp only [leaves, nodes, Node.preorder, Node.children, List.flatMap_map, List.filter_cons,
      List.filter_flatMap]
    rfl
  rw [hnodes, List.map_flatMap]
  simp only [Item.leaves_span]

/-! ## Layouts -/

section Layouts

variable {spared : Nat → Char → Prop}

/-- Spacing is spared. -/
theorem covers_spacing (hspacing : ∀ i c, isSpacing c = true → spared i c) (o : Nat)
    (w : Spacing) : Covers spared o w.text [] :=
  .nil fun i c hi => hspacing (o + i) c (w.blank c (List.mem_of_getElem? hi))

theorem covers_pieces (o : Nat) (ps : List Piece) :
    Covers spared o (piecesText ps) ((piecesFragments o ps).map Fragment.span) := by
  induction ps generalizing o with
  | nil => exact .nil nofun
  | cons p ps ih => exact (Covers.single o p.text).append (ih (o + p.text.length))

theorem covers_value (o : Nat) (value : Option (List Piece)) :
    Covers spared o (valueText value)
      (((value.map (piecesValue o)).map fun v => v.fragments.map Fragment.span).getD []) := by
  cases value with
  | none => exact .nil nofun
  | some ps => exact covers_pieces o ps

/-- What stands behind a key is covered, or spared where there is no delimiter. -/
theorem covers_ending (hspacing : ∀ i c, isSpacing c = true → spared i c) (o : Nat)
    (e : Ending) (hbare : e.assignment o = none →
      ∀ i c, o ≤ i → i < o + e.text.length → spared i c) :
    Covers spared o e.text (((e.assignment o).map Assignment.leafSpans).getD []) := by
  cases e with
  | skipped rest =>
    refine .nil fun i c hi => hbare rfl (o + i) c (Nat.le_add_right o i) ?_
    exact Nat.add_lt_add_left (List.getElem?_eq_some_iff.mp hi).1 o
  | assigned before delimiter behind value =>
    refine (covers_spacing hspacing o before).append ?_
    refine (Covers.single _ [delimiter]).append ?_
    exact (covers_spacing hspacing _ behind).append (covers_value _ value)

/-- A layout is covered by the leaves of its parts, if what may stand between them is spared, as
well as what is skipped behind a key without a delimiter. -/
theorem covers_layout
    (hgap : ∀ i c, isSpacing c = true ∨ isTerminator c = true → spared i c) (l : Layout) :
    ∀ o, (∀ p, .property p ∈ l.items o → p.assignment = none →
        ∀ i c, p.key.stop ≤ i → p.span.holds i = true → spared i c) →
      Covers spared o l.text ((l.items o).flatMap Item.leafSpans) := by
  have hspacing : ∀ i c, isSpacing c = true → spared i c := fun i c hc => hgap i c (Or.inl hc)
  induction l with
  | nil => exact fun o _ => .nil nofun
  | cons b l ih =>
    intro o hbare
    rw [Layout.items, layOut, List.flatMap_append]
    refine Covers.append ?_ (ih _ fun p hp => hbare p (List.mem_append_right _ hp))
    cases b with
    | gap c hc =>
      refine .nil fun i c' hi => hgap (o + i) c' ?_
      rwa [List.mem_singleton.mp (List.mem_of_getElem? hi)]
    | comment text =>
      exact Covers.single o text
    | property key ending =>
      have hskipped := hbare (ending.property o key) (by simp [Layout.items, layOut, Block.items])
      have hspans : (Block.items o (.property key ending)).flatMap Item.leafSpans =
          (ending.property o key).key ::
            ((ending.assignment (o + key.length)).map Assignment.leafSpans).getD [] :=
        List.append_nil _
      rw [hspans]
      refine (Covers.single o key).append (covers_ending hspacing _ ending ?_)
      refine fun hnone i c hkey hstop => hskipped hnone i c hkey (Span.holds_iff.mpr ⟨?_, hstop⟩)
      exact Nat.le_trans (Nat.le_add_right o key.length) hkey

end Layouts

/-! ## Documents -/

/-- A character that stands in no leaf : spacing or part of a line terminator, a byte order mark
at the start of the text, or part of a property that has no delimiter, behind its key. -/
def Tree.Spares (t : Tree) (i : Nat) (c : Char) : Prop :=
  isSpacing c = true ∨ isTerminator c = true ∨ (i = 0 ∧ c = '\uFEFF') ∨
    ∃ p ∈ t.properties, p.assignment = none ∧ p.key.stop ≤ i ∧ p.span.holds i = true

theorem Tree.covers_mark (t : Tree) {mark : Text} (h : mark = [] ∨ mark = ['\uFEFF']) :
    Covers t.Spares 0 mark [] := by
  rcases h with rfl | rfl
  · exact .nil nofun
  · refine .nil fun i c hi => Or.inr (Or.inr (Or.inl ?_))
    obtain ⟨hlt, rfl⟩ := List.getElem?_eq_some_iff.mp hi
    have hzero : i = 0 := by simpa using hlt
    subst hzero
    exact ⟨rfl, rfl⟩

/-- Every character of a text stands in at most one leaf of its tree, and in one unless it is
spared. -/
theorem Document.leaves_cover (b : Buffer) {i : Nat} {c : Char} (hi : b.text[i]? = some c) :
    (ofBuffer b).tree.leaves.countP (·.span.holds i) ≤ 1 ∧
      ((∀ n ∈ (ofBuffer b).tree.leaves, n.span.holds i = false) →
        (ofBuffer b).tree.Spares i c) := by
  obtain ⟨mark, l, h⟩ := Layout.exists_describes b.text
  have hitems : (ofBuffer b).tree.items = l.items mark.length := h.items
  generalize (ofBuffer b).tree = tree at hitems ⊢
  have hcovers : Covers tree.Spares 0 b.text (tree.leaves.map Node.span) := by
    rw [h.text, Tree.leaves_span, hitems]
    refine (tree.covers_mark h.byteOrderMark).append ?_
    rw [Nat.zero_add]
    refine covers_layout (fun i c hc => hc.elim Or.inl fun ht => Or.inr (Or.inl ht)) l _ ?_
    intro p hp hnone i c hkey hspan
    refine Or.inr (Or.inr (Or.inr ⟨p, ?_, hnone, hkey, hspan⟩))
    exact List.mem_filterMap.mpr ⟨.property p, hitems ▸ hp, rfl⟩
  refine ⟨?_, fun hnone => ?_⟩
  · have honce := hcovers.once i
    rwa [List.countP_map] at honce
  · have hspared := hcovers.complete i c hi
    rw [Nat.zero_add, List.forall_mem_map] at hspared
    exact hspared hnone

/-- Behind a byte order mark, the `x` of a key without a delimiter stands in no leaf, and the
indent of a continued line stands in the literal that goes on there. -/
theorem Document.leaves_cover_continued :
    ∃ b : Buffer, b.text = ['\uFEFF', 'k', ' ', 'x', '\n', 'a', ':', ' ', 'b', '\\', '\n', ' ',
        '$'] ∧
      b.text[3]? = some 'x' ∧ (ofBuffer b).tree.leaves.countP (·.span.holds 3) = 0 ∧
      (ofBuffer b).tree.Spares 3 'x' ∧
      b.text[11]? = some ' ' ∧ (∃ n ∈ (ofBuffer b).tree.leaves, n.span.holds 11 = true) ∧
      (ofBuffer b).tree.leaves.countP (·.span.holds 11) ≤ 1 :=
  ⟨⟨"a", ['\uFEFF', 'k', ' ', 'x', '\n', 'a', ':', ' ', 'b', '\\', '\n', ' ', '$'], 1⟩, rfl, rfl,
    by decide, (leaves_cover _ rfl).2 (by decide), rfl, by decide, (leaves_cover _ rfl).1⟩

end DotProperties
