import DotProperties.Proofs.Document.Coverage
import DotProperties.Proofs.Document.Order
import DotProperties.Proofs.Event.Reports

/-!
# The errors of a document

The errors of a document are the control characters in its keys and fragments, each reported once,
where it stands (`Document.errors_complete`).

A scan reports a character by what is open behind it. The constructs that are open at a character
are the nodes that hold it (`Node.levelAt_marks`), since a node opens at its start and closes behind
its last character. So the keys and fragments that a scan is in are those of the tree
(`Tree.countP_holdsAs`).
-/

namespace DotProperties

open Event

/-! ## The nodes at a character -/

/-- Only marks open or close a construct. -/
theorem levelAt_marksOf (k : Construct) (i : Nat) (es : List Event) :
    levelAt k i (marksOf es) = levelAt k i es := by
  induction es with
  | nil => rfl
  | cons e es ih =>
    cases he : e.isMark with
    | true =>
      rw [marksOf, List.filter_cons_of_pos he, levelAt_cons, levelAt_cons]
      exact congrArg _ ih
    | false =>
      have hchange : e.change k = 0 := by
        cases e <;> first | rfl | cases he
      rw [marksOf, List.filter_cons_of_neg (by simp [he]), levelAt_cons, hchange, ite_self,
        Int.zero_add]
      exact ih

namespace Node

/-- The node is a construct `k` and holds the character at `i`. -/
def holdsAs (k : Construct) (i : Nat) (n : Node) : Bool :=
  n.kind.construct? == some k && n.span.holds i

variable {k : Construct} {i : Nat}

theorem levelAt_flatMap_marks {ns : List Node}
    (h : ∀ n ∈ ns, levelAt k i n.marks = n.preorder.countP (holdsAs k i)) :
    levelAt k i (ns.flatMap marks) = (ns.flatMap preorder).countP (holdsAs k i) := by
  induction ns with
  | nil => rfl
  | cons n ns ih =>
    obtain ⟨hn, hns⟩ := List.forall_mem_cons.mp h
    rw [List.flatMap_cons, List.flatMap_cons, levelAt_append, List.countP_append, hn, ih hns,
      Int.natCast_add]

/-- The constructs that are open at a character are the nodes that hold it. -/
theorem levelAt_marks {n : Node} (h : ∀ m ∈ n.preorder, m.span.start ≤ m.span.stop) :
    levelAt k i n.marks = n.preorder.countP (holdsAs k i) := by
  induction n using children_induction with
  | h n ih =>
    have hordered := h n (by simp [preorder])
    have hchildren := levelAt_flatMap_marks fun m hm => ih m hm fun m' hm' =>
      h m' (preorder_subset hm hm')
    rw [marks_eq, marksWith, preorder_eq, List.countP_cons, Int.natCast_add, ← hchildren]
    cases hc : n.kind.construct? with
    | none =>
      rw [children_eq_nil hc]
      simp [holdsAs, hc, change]
    | some c =>
      -- The node counts from its start on, and no more from its end on.
      have hnode : (if n.span.start ≤ i then change k (start c n.span.start) else 0) +
          (if n.span.stop ≤ i then change k (stop c n.span.stop) else 0) =
            ((if n.holdsAs k i = true then 1 else 0 : Nat) : Int) := by
        by_cases hk : c = k
        · simp only [change, holdsAs, hc, hk, if_true, Bool.and_eq_true, beq_self_eq_true, true_and,
            Span.holds_iff]
          split_ifs <;> omega
        · simp [change, holdsAs, hc, hk]
      rw [← hnode, levelAt_cons, levelAt_append, levelAt_cons, levelAt_nil]
      simp only [offset]
      omega

end Node

namespace Tree

/-- The nodes that hold a character are the constructs that are open behind it, unless it closes an
expression. -/
theorem countP_holdsAs {k : Construct} (hk : k ≠ .document) {u : Text} {c : Char}
    (hc : (Scanner.initial.after (u ++ [c])).mode ≠ .between) (v : Text) :
    (ofEvents (ofText (u ++ c :: v))).nodes.countP (Node.holdsAs k u.length) =
      (Scanner.initial.after (u ++ [c])).mode.stack.count k := by
  have hordered : ∀ n ∈ (ofEvents (ofText (u ++ c :: v))).nodes, n.span.start ≤ n.span.stop :=
    fun n hn => (fits_ofText _ n hn).ordered
  have hmarks := Node.levelAt_marks (k := k) (i := u.length) hordered
  rw [← marks_ofText, levelAt_marksOf, levelAt_ofText hk hc v] at hmarks
  exact (Int.ofNat_inj.mp hmarks).symm

end Tree

theorem NodeKind.construct?_eq_some_iff {kind : NodeKind} :
    (∃ k ∈ [Construct.key, .literal, .expression], kind.construct? = some k) ↔
      kind ∈ [NodeKind.key, .literal, .expression] := by
  cases kind <;> decide

/-- An ordinary character lies in a key or a fragment exactly if a scan is in a run behind it. -/
theorem Tree.exists_holds_iff {u : Text} {c : Char} (hc : isOrdinary c = true) (v : Text) :
    (∃ n ∈ (ofEvents (ofText (u ++ c :: v))).nodes, n.kind ∈ [.key, .literal, .expression] ∧
      n.span.holds u.length = true) ↔ (Scanner.initial.after (u ++ [c])).mode.isRun = true := by
  have hmode : (∃ r, (Scanner.initial.after (u ++ [c])).mode = .run r) ∨
      (Scanner.initial.after (u ++ [c])).mode.inside = none := by
    rw [Scanner.after_append]
    exact Mode.read_ordinary hc _ _
  have hbetween : (Scanner.initial.after (u ++ [c])).mode ≠ .between := by
    intro hbetween
    rw [hbetween] at hmode
    rcases hmode with ⟨r, hr⟩ | hinside
    · exact nomatch hr
    · exact nomatch hinside
  have hcount : ∀ k ∈ [Construct.key, .literal, .expression],
      (ofEvents (ofText (u ++ c :: v))).nodes.countP (Node.holdsAs k u.length) =
        (Scanner.initial.after (u ++ [c])).mode.stack.count k := by
    intro k hk
    refine countP_holdsAs ?_ hbetween v
    rintro rfl
    exact absurd hk (by decide)
  rw [Mode.isRun_iff_stack hmode]
  constructor
  · rintro ⟨n, hn, hkind, hholds⟩
    obtain ⟨k, hk, hconstruct⟩ := NodeKind.construct?_eq_some_iff.mpr hkind
    refine ⟨k, hk, ?_⟩
    rw [← hcount k hk]
    exact List.countP_pos_iff.mpr ⟨n, hn, by simp [Node.holdsAs, hconstruct, hholds]⟩
  · rintro ⟨k, hk, hpos⟩
    rw [← hcount k hk] at hpos
    obtain ⟨n, hn, hnode⟩ := List.countP_pos_iff.mp hpos
    obtain ⟨hconstruct, hholds⟩ : n.kind.construct? = some k ∧ n.span.holds u.length = true := by
      simpa [Node.holdsAs] using hnode
    exact ⟨n, hn, NodeKind.construct?_eq_some_iff.mp ⟨k, hk, hconstruct⟩, hholds⟩

/-! ## Errors -/

/-- The errors of the document of a buffer are the control characters in its keys and fragments. -/
structure Document.ErrorsComplete (b : Buffer) : Prop where
  /-- They come in the order of the text, each once. -/
  ordered : (ofBuffer b).errors.Pairwise (·.offset < ·.offset)
  /-- They are the characters below a blank, other than tabs and line ends, that a key, a literal or
  an expression holds. -/
  complete : ∀ o c, (∃ x ∈ (ofBuffer b).errors, x.offset = o ∧ x.character = c) ↔
    b.text[o]? = some c ∧ (c < ' ' ∧ c ≠ '\t' ∧ c ≠ '\r' ∧ c ≠ '\n') ∧
      ∃ n ∈ (ofBuffer b).tree.nodes, n.kind ∈ [.key, .literal, .expression] ∧ n.span.holds o = true
  /-- They tell the positions of their offsets. A byte order mark on their line is not counted. -/
  placed : ∀ x ∈ (ofBuffer b).errors, b.positionAt x.offset =
    .ok (if x.position.line = 0 ∧ b.text.head? = some '\uFEFF' then
      ⟨0, x.position.character + 1⟩ else x.position)

namespace Document

variable {b : Buffer}

/-- The errors of a document are the characters of its text that are reported. -/
theorem exists_error_iff {o : Nat} {c : Char} :
    (∃ x ∈ (ofBuffer b).errors, x.offset = o ∧ x.character = c) ↔
      ∃ u v, b.text = u ++ c :: v ∧ u.length = o ∧ isInvalid c = true ∧
        (Scanner.initial.after (u ++ [c])).mode.isRun = true := by
  constructor
  · rintro ⟨x, hx, rfl, rfl⟩
    obtain ⟨u, c, v, ht, hinvalid, hrun, rfl⟩ := Scanner.mem_invalid?_scan_iff.mp hx
    refine ⟨u, v, ht, (Scanner.offset_after_initial u).symm, hinvalid, ?_⟩
    rwa [Scanner.after_append]
  · rintro ⟨u, v, ht, rfl, hinvalid, hrun⟩
    rw [Scanner.after_append] at hrun
    exact ⟨_, Scanner.mem_invalid?_scan_iff.mpr ⟨u, c, v, ht, hinvalid, hrun, rfl⟩,
      Scanner.offset_after_initial u, rfl⟩

theorem positionAt_error {x : InvalidCharacter} (hx : x ∈ (ofBuffer b).errors) :
    b.positionAt x.offset = .ok (if x.position.line = 0 ∧ b.text.head? = some '\uFEFF' then
      ⟨0, x.position.character + 1⟩ else x.position) := by
  have hposition := Event.positionAt?_of_invalid hx
  obtain ⟨c, o, line, character⟩ := x
  dsimp only at hposition ⊢
  rw [Buffer.positionAt, hposition, Text.mark]
  split_ifs <;> simp_all

/-- For every text, the errors are complete, in order and in their places. -/
theorem errors_complete (b : Buffer) : ErrorsComplete b where
  ordered := Scanner.initial.pairwise_invalid?_scan b.text
  complete o c := by
    rw [exists_error_iff, ← isControl_iff]
    constructor
    · rintro ⟨u, v, ht, rfl, hinvalid, hrun⟩
      have hterminator : isTerminator c = false := by
        rw [Scanner.after_append] at hrun
        exact Mode.not_isTerminator_of_isRun hrun
      have hordinary := isOrdinary_of_isInvalid hinvalid hterminator
      have hnode := (Tree.exists_holds_iff hordinary v).mpr hrun
      rw [← ht] at hnode
      refine ⟨?_, ⟨hinvalid, hterminator⟩, hnode⟩
      rw [ht, List.getElem?_append_right (Nat.le_refl _), Nat.sub_self, List.getElem?_cons_zero]
    · rintro ⟨hc, ⟨hinvalid, hterminator⟩, hnode⟩
      obtain ⟨u, v, ht, rfl⟩ := Text.exists_cons_of_getElem? hc
      have hordinary := isOrdinary_of_isInvalid hinvalid hterminator
      refine ⟨u, v, ht, rfl, hinvalid, (Tree.exists_holds_iff hordinary v).mp ?_⟩
      rw [← ht]
      exact hnode
  placed _ := positionAt_error

/-- A byte order mark does not count, and what a comment holds is not reported. -/
example : (ofBuffer ⟨"u", ['\uFEFF', 'a', '\x01', '\n', '#', '\x02'], 1⟩).errors =
    [⟨'\x01', 2, 0, 1⟩] := by decide

end Document

end DotProperties
