import DotProperties.Proofs.Document.Expression
import DotProperties.Proofs.Document.LineEnds
import DotProperties.Proofs.Text.Joined

/-!
# Values made up of fragments

The logical text of a value is made up of the logical texts of its fragments
(`Document.value?_eq_flatten`), although the continuations of each fragment are removed without a
look at the others. What is removed behind a continuation could go beyond the end of a fragment,
but a fragment is only cut where this does not happen (`Text.Seam`) : an expression starts with a
`$`, which is no blank, and a literal that is not the first fragment stands behind an expression
that has come to its own end, with a `}` or with a `$` alone.
-/

namespace DotProperties

open Event

/-! ## Texts joined in parts -/

namespace Text

/-- The cut between `x` and `y` stands before a `$`, or behind a `}` or a `$`, and so in no
continuation. -/
def Seam (x y : Text) : Prop :=
  y.head? = some '$' ∨ x.getLast? = some '}' ∨ x.getLast? = some '$'

theorem join_append_of_seam {x y : Text} (h : Seam x y) : join (x ++ y) = join x ++ join y := by
  have hbehind {c : Char} (hblank : isBlank c = false) (hc : c ≠ '\\')
      (hlast : x.getLast? = some c) : join (x ++ y) = join x ++ join y := by
    obtain ⟨x, rfl⟩ := List.getLast?_eq_some_iff.mp hlast
    rw [List.append_assoc, List.singleton_append, join_append_cons hblank hc,
      join_append_cons hblank hc, List.append_assoc]
    rfl
  rcases h with hhead | hlast | hlast
  · obtain ⟨y, rfl⟩ := List.head?_eq_some_iff.mp hhead
    obtain ⟨trimming, hjoin⟩ := exists_joinFrom_append false x
    rw [join, hjoin _ (by rintro _ ⟨⟩; rfl), ← joinFrom_of_not_blank rfl trimming,
      joinFrom_of_not_blank rfl false]
    rfl
  · exact hbehind (by decide) (by decide) hlast
  · exact hbehind (by decide) (by decide) hlast

theorem slice_append (t : Text) {o m stop : Nat} (ho : o ≤ m) (hm : m ≤ stop) :
    t.slice ⟨o, stop⟩ = t.slice ⟨o, m⟩ ++ t.slice ⟨m, stop⟩ := by
  have hlength : stop - o = (m - o) + (stop - m) := by omega
  simp only [slice, Span.length, hlength, List.take_add, List.drop_drop, Nat.add_sub_cancel' ho]

theorem slice_self (t : Text) (o : Nat) : t.slice ⟨o, o⟩ = [] := by
  rw [slice, Span.length, Nat.sub_self, List.take_zero]

theorem head?_slice (t : Text) {s : Span} (h : s.start < s.stop) :
    (t.slice s).head? = (t.drop s.start).head? := by
  rw [slice, List.head?_take, if_neg]
  rw [Span.length]
  omega

theorem getLast?_slice {t : Text} {s : Span} (h : s.start < s.stop) (hs : s.stop ≤ t.length) :
    (t.slice s).getLast? = (t.take s.stop).getLast? := by
  have hdrop : t.slice s = (t.take s.stop).drop s.start := by
    rw [slice, List.drop_take, Span.length]
  rw [hdrop, List.getLast?_drop, if_neg]
  rw [List.length_take]
  omega

end Text

/-! ## Where fragments meet -/

/-- A literal behind an expression stands behind its brace, or behind its `$`. -/
theorem StopsExpression.getLast?_of_literal {u v : Text} {c : Char} {k : Stopper}
    (h : StopsExpression u (c :: v) k) (hstart : start .literal u.length ∈ ofText (u ++ c :: v)) :
    u.getLast? = some '}' ∨ u.getLast? = some '$' := by
  obtain ⟨hmode, -⟩ : (_ ∨ _) ∧ _ := starts_of_mem_ofText (by decide) hstart
  cases h with
  | brace u' hu =>
    subst hu
    exact Or.inl List.getLast?_concat
  | character d k _ hbreaks =>
    have hin := hbreaks.inExpression
    rcases hmode with hmode | hmode | hmode <;> rw [hmode] at hin <;>
      rcases hin with hin | hin | hin <;> exact nomatch hin
  | textEnd hv => exact nomatch hv
  | alone hdollar =>
    have hfollows := Scanner.follows_after u
    rw [hdollar] at hfollows
    exact Or.inr hfollows

namespace Document

variable {b : Buffer}

/-- Between two fragments that meet no continuation goes on. -/
theorem seam_of_meet {f g : Fragment} (hf : .fragment f ∈ (ofBuffer b).tree.nodes)
    (hg : .fragment g ∈ (ofBuffer b).tree.nodes) (hmeet : f.Meet g)
    (hnext : g.span.start = f.span.stop) (hf' : f.span.start < f.span.stop)
    (hg' : g.span.start < g.span.stop) :
    Text.Seam (b.text.slice f.span) (b.text.drop f.span.stop) := by
  have hwithin : g.span.stop ≤ b.text.length := (Tree.fits_ofText b.text _ hg).within
  have hlt : g.span.start < b.text.length := by omega
  obtain ⟨u, v, htext, hu⟩ := Text.exists_cons_of_getElem? (List.getElem?_eq_getElem hlt)
  generalize b.text[g.span.start] = c at htext
  have htake : b.text.take f.span.stop = u := by rw [← hnext, ← hu, htext, List.take_left]
  have hdrop : b.text.drop f.span.stop = c :: v := by rw [← hnext, ← hu, htext, List.drop_left]
  rw [Text.Seam, Text.getLast?_slice hf' (by omega), hdrop, htake]
  obtain ⟨_ | _, s⟩ := g
  · have hstart := (Tree.bounds_mem_ofText hg (c := .literal) rfl).1
    -- Two literals do not meet, so `f` is an expression, and the literal starts where it stopped.
    have hexpression : f.kind = .expression := by
      cases hkind : f.kind with
      | literal => exact (hmeet ⟨hkind, rfl⟩).elim
      | expression => rfl
    obtain ⟨k, hstops, -⟩ := exists_expresses hf hexpression
    rw [Text.Stops, htake, hdrop] at hstops
    rw [Node.span, ← hu, htext] at hstart
    exact Or.inr (hstops.getLast?_of_literal hstart)
  · have hstart := (Tree.bounds_mem_ofText hg (c := .expression) rfl).1
    rw [Node.span, ← hu, htext] at hstart
    obtain ⟨rfl, -⟩ : c = '$' ∧ _ := starts_of_mem_ofText (by decide) hstart
    exact Or.inl rfl

/-! ## Values -/

/-- Fragments without a gap are joined one by one. -/
theorem join_slice_of_tile {fs : List Fragment} {o stop : Nat} (htile : Fragment.Tile stop o fs)
    (hmeet : fs.IsChain Fragment.Meet)
    (hnodes : ∀ f ∈ fs, .fragment f ∈ (ofBuffer b).tree.nodes) :
    (b.text.slice ⟨o, stop⟩).join = (fs.map fun f => (b.text.slice f.span).join).flatten := by
  induction fs generalizing o with
  | nil =>
    obtain rfl : o = stop := htile
    rw [Text.slice_self]
    rfl
  | cons f fs ih =>
    obtain ⟨rfl, hlt, hrest⟩ := htile
    obtain ⟨hf, htail⟩ := List.forall_mem_cons.mp hnodes
    have hcut : (b.text.slice f.span ++ b.text.slice ⟨f.span.stop, stop⟩).join =
        (b.text.slice f.span).join ++ (b.text.slice ⟨f.span.stop, stop⟩).join := by
      cases fs with
      | nil =>
        obtain rfl : f.span.stop = stop := hrest
        rw [Text.slice_self, List.append_nil]
        exact (List.append_nil _).symm
      | cons g gs =>
        obtain ⟨hnext, hlt', hrest'⟩ := hrest
        have hseam := seam_of_meet hf (htail g List.mem_cons_self)
          (List.isChain_cons_cons.mp hmeet).1 hnext hlt (by omega)
        refine Text.join_append_of_seam ?_
        rwa [Text.Seam, Text.head?_slice _ (Nat.lt_of_lt_of_le hlt' hrest'.le)]
    rw [b.text.slice_append (Nat.le_of_lt hlt) hrest.le, hcut, ih hrest hmeet.tail htail,
      List.map_cons, List.flatten_cons]

theorem text?_of_mem_nodes {n : Node} (hn : n ∈ (ofBuffer b).tree.nodes) :
    (ofBuffer b).text? n.span true = some (b.text.slice n.span).join := by
  have hfits := Tree.fits_ofText b.text n hn
  have hslice : (ofBuffer b).buffer.slice? n.span = some (b.text.slice n.span) :=
    if_pos ⟨hfits.ordered, hfits.within⟩
  rw [text?, hslice]
  rfl

/-- The value of a property is put together from the logical texts of its fragments, in order. The
logical text of a key, a value or a fragment is a single line. -/
theorem value?_eq_flatten (b : Buffer) :
    (∀ p ∈ (ofBuffer b).properties, ∀ v, p.value? = some v → ∃ texts : List Text,
      v.fragments.map (fun f => (ofBuffer b).text? f.span true) = texts.map some ∧
        (ofBuffer b).value? p = some texts.flatten) ∧
    ∀ n ∈ (ofBuffer b).tree.nodes, n.kind ∈ [.key, .value, .literal, .expression] →
      ∃ t, (ofBuffer b).text? n.span true = some t ∧ '\r' ∉ t ∧ '\n' ∉ t := by
  refine ⟨fun p hp v hv => ?_, fun n hn hkind => ?_⟩
  · have hitem := Tree.mem_properties_iff.mp hp
    have hnodes : ∀ f ∈ v.fragments, .fragment f ∈ (ofBuffer b).tree.nodes := fun f hf =>
      Tree.mem_nodes_iff.mpr (Or.inr (Or.inr
        ⟨p, hitem, Or.inr (Or.inr ⟨v, hv, Or.inr ⟨f, hf, rfl⟩⟩)⟩))
    have htiled := Tree.tiled_value hitem hv
    refine ⟨v.fragments.map fun f => (b.text.slice f.span).join, ?_, ?_⟩
    · rw [List.map_map]
      exact List.map_congr_left fun f hf => text?_of_mem_nodes (hnodes f hf)
    · rw [value?, hv, Option.map_some, logical, raw_eq_slice]
      exact congrArg some (join_slice_of_tile htiled.tile htiled.meet hnodes)
  · refine ⟨_, text?_of_mem_nodes hn, fun h => ?_, fun h => ?_⟩
    · exact Bool.noConfusion (Tree.not_terminator_of_mem_join hn hkind _ h)
    · exact Bool.noConfusion (Tree.not_terminator_of_mem_join hn hkind _ h)

/-- A literal that stops behind a continuation, and one that starts with a blank behind a `$`. -/
theorem value?_eq_flatten_continued :
    ∃ (b : Buffer) (p : Property) (v : Value) (texts : List Text) (t : Text),
      b.text = ['a', '=', 'x', '\\', '\r', '\n', ' ', '$', ' ', 'y', '\\', '\n'] ∧
      p ∈ (ofBuffer b).properties ∧ p.value? = some v ∧
      v.fragments.map Fragment.span = [⟨2, 7⟩, ⟨7, 8⟩, ⟨8, 12⟩] ∧
      v.fragments.map (fun f => (ofBuffer b).text? f.span true) = texts.map some ∧
      (ofBuffer b).value? p = some texts.flatten ∧ texts.flatten = ['x', '$', ' ', 'y'] ∧
      (ofBuffer b).text? ⟨2, 7⟩ true = some t ∧ '\r' ∉ t ∧ '\n' ∉ t := by
  let b : Buffer := ⟨"u", ['a', '=', 'x', '\\', '\r', '\n', ' ', '$', ' ', 'y', '\\', '\n'], 1⟩
  let v : Value := ⟨⟨2, 12⟩, [⟨.literal, 2, 7⟩, ⟨.expression, 7, 8⟩, ⟨.literal, 8, 12⟩]⟩
  let p : Property := ⟨⟨0, 12⟩, ⟨0, 1⟩, some ⟨1, some v⟩⟩
  have hp : p ∈ (ofBuffer b).properties := by decide
  have hn : .fragment ⟨.literal, 2, 7⟩ ∈ (ofBuffer b).tree.nodes := by decide
  obtain ⟨texts, htexts, hvalue⟩ := (value?_eq_flatten b).1 p hp v rfl
  obtain ⟨t, ht, hreturn, hfeed⟩ := (value?_eq_flatten b).2 _ hn (by decide)
  refine ⟨b, p, v, texts, t, rfl, hp, rfl, rfl, htexts, hvalue, ?_, ht, hreturn, hfeed⟩
  exact Option.some.inj (hvalue.symm.trans (by decide))

end Document

end DotProperties
