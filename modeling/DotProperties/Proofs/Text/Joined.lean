import DotProperties.Proofs.Text.Continuation
import Mathlib.Data.List.Chain

/-!
# Texts without continuations

A text is joined (`Text.IsJoined`) if no backslash in it stands right before a line terminator. The
texts that `Text.join` leaves as they are are these texts (`Text.join_eq_self_iff`), and it gives no
other ones (`Text.isJoined_join`). So to remove continuations once is enough.

This is not clear from one continuation alone. What is removed may bring a backslash that was kept
next to what stands behind it. But all blanks behind a continuation are dropped with it, and a
terminator is blank. So a terminator at the start of a logical text stands at the start of the text
itself, with no continuation before it (`Text.head?_joinFrom`).
-/

namespace DotProperties

namespace Text

/-- No backslash stands right before a line terminator. -/
def IsJoined (t : Text) : Prop := t.IsChain fun c d => c = '\\' → isTerminator d = false

instance (t : Text) : Decidable t.IsJoined :=
  inferInstanceAs (Decidable (t.IsChain fun c d => c = '\\' → isTerminator d = false))

variable {t : Text}

theorem isJoined_cons_iff {c : Char} : IsJoined (c :: t) ↔
    (c = '\\' → ∀ d ∈ t.head?, isTerminator d = false) ∧ t.IsJoined := by
  rw [IsJoined, List.isChain_cons]
  exact and_congr_left fun _ => ⟨fun h hc d hd => h d hd hc, fun h d hd hc => h hc d hd⟩

theorem isJoined_iff_not_infix :
    t.IsJoined ↔ ¬['\\', '\n'] <:+: t ∧ ¬['\\', '\r'] <:+: t := by
  rw [IsJoined, List.isChain_iff_forall_rel_of_append_cons_cons]
  constructor
  · intro h
    refine ⟨?_, ?_⟩
    · rintro ⟨x, y, rfl⟩
      exact Bool.noConfusion (h (List.append_assoc x _ y) rfl)
    · rintro ⟨x, y, rfl⟩
      exact Bool.noConfusion (h (List.append_assoc x _ y) rfl)
  · rintro ⟨hfeed, hreturn⟩ c d x y rfl rfl
    refine Bool.eq_false_iff.mpr fun hd => ?_
    rcases isTerminator_iff.mp hd with rfl | rfl
    · exact hfeed ⟨x, y, by simp⟩
    · exact hreturn ⟨x, y, by simp⟩

/-- A terminator at the start of a logical text stands at the start of the text, and no continuation
was just removed. -/
theorem head?_joinFrom {trimming : Bool} {c : Char} (hc : isTerminator c = true)
    (h : (joinFrom trimming t).head? = some c) : trimming = false ∧ t.head? = some c := by
  fun_induction joinFrom trimming t with
  | case1 => cases h
  | case2 trimming t ih | case3 trimming t ih | case4 trimming t _ ih => cases (ih h).1
  | case5 trimming d t _ _ _ _ ih => cases (ih h).1
  | case6 trimming d t _ _ _ hd ih =>
    obtain rfl : d = c := Option.some.inj h
    refine ⟨Bool.eq_false_iff.mpr fun htrimming => hd ?_, rfl⟩
    rcases isTerminator_iff.mp hc with rfl | rfl <;> rw [htrimming] <;> rfl

/-- A logical text holds no continuation. -/
theorem isJoined_joinFrom (trimming : Bool) (t : Text) : (joinFrom trimming t).IsJoined := by
  fun_induction joinFrom trimming t with
  | case1 => exact .nil
  | case2 trimming t ih | case3 trimming t ih | case4 trimming t _ ih => exact ih
  | case5 trimming c t _ _ _ _ ih => exact ih
  | case6 trimming c t hfeed _ hreturn _ ih =>
    refine isJoined_cons_iff.mpr ⟨fun hc d hd => ?_, ih⟩
    -- Were the next character kept a terminator, the backslash would stand right before it.
    refine Bool.eq_false_iff.mpr fun hterminator => ?_
    obtain ⟨t, rfl⟩ := List.head?_eq_some_iff.mp (head?_joinFrom hterminator hd).2
    rcases isTerminator_iff.mp hterminator with rfl | rfl
    · exact hfeed t hc rfl
    · exact hreturn t hc rfl

theorem isJoined_join (t : Text) : t.join.IsJoined := isJoined_joinFrom false t

/-- A text without continuations is its own logical text. -/
theorem join_of_isJoined (h : t.IsJoined) : t.join = t := by
  induction t with
  | nil => rfl
  | cons c t ih =>
    obtain ⟨hc, ht⟩ := isJoined_cons_iff.mp h
    rw [join, joinFrom_cons hc, Bool.false_and, if_neg Bool.false_ne_true]
    exact congrArg (c :: ·) (ih ht)

theorem join_eq_self_iff : t.join = t ↔ t.IsJoined :=
  ⟨fun h => h ▸ isJoined_join t, join_of_isJoined⟩

theorem join_join (t : Text) : t.join.join = t.join := join_of_isJoined (isJoined_join t)

/-- A character that is neither blank nor a backslash parts a text in two that are joined each by
itself. -/
theorem join_append_cons {c : Char} (hblank : isBlank c = false) (hc : c ≠ '\\') (x y : Text) :
    join (x ++ c :: y) = x.join ++ c :: y.join := by
  have hline : ∀ d ∈ (c :: y).head?, isTerminator d = false := by
    rintro _ ⟨⟩
    exact not_isTerminator_of_not_blank hblank
  obtain ⟨trimming, hjoin⟩ := exists_joinFrom_append false x
  rw [join, hjoin _ hline, joinFrom_cons fun h => (hc h).elim, hblank, Bool.and_false,
    if_neg Bool.false_ne_true]
  rfl

end Text

namespace Document

theorem text?_of_le {b : Buffer} {s : Span} (h : s.start ≤ s.stop) (h' : s.stop ≤ b.length)
    (joined : Bool) : (ofBuffer b).text? s joined =
      some (if joined then (b.text.slice s).join else b.text.slice s) := by
  have hslice : (ofBuffer b).buffer.slice? s = some (b.text.slice s) := if_pos ⟨h, h'⟩
  rw [text?, hslice, Option.map_some]

/-- Continuations are removed once and for all : the logical text of a span that lies in the
document, wherever it is cut, holds no backslash right before a line terminator. Read as a document
of its own it is its own logical text. It is the text as written exactly if that holds no
continuation. -/
theorem text?_isJoined (b : Buffer) {s : Span} (h : s.start ≤ s.stop) (h' : s.stop ≤ b.length) :
    ∃ raw t, (ofBuffer b).text? s false = some raw ∧ (ofBuffer b).text? s true = some t ∧
      (¬['\\', '\n'] <:+: t ∧ ¬['\\', '\r'] <:+: t) ∧
      (∀ b' : Buffer, b'.text = t → (ofBuffer b').text? ⟨0, b'.length⟩ true = some t) ∧
      (t = raw ↔ ¬['\\', '\n'] <:+: raw ∧ ¬['\\', '\r'] <:+: raw) := by
  refine ⟨_, _, text?_of_le h h' false, text?_of_le h h' true,
    Text.isJoined_iff_not_infix.mp (Text.isJoined_join _), fun b' hb' => ?_,
    Text.join_eq_self_iff.trans Text.isJoined_iff_not_infix⟩
  have hwhole : b'.text.slice ⟨0, b'.length⟩ = b'.text := List.take_length
  rw [text?_of_le (Nat.zero_le _) (Nat.le_refl _), hwhole, hb']
  exact congrArg some (Text.join_join _)

/-- A backslash that is kept, a continuation behind it, and two terminators behind that, cut inside
the first terminator. -/
theorem text?_isJoined_cut :
    ∃ (b : Buffer) (t : Text), b.text = ['a', '\\', '\\', '\r', '\n', '\n', 'b'] ∧
      (0 ≤ 4 ∧ 4 ≤ b.length) ∧ (ofBuffer b).text? ⟨0, 4⟩ true = some t ∧ t = ['a', '\\'] ∧
      (¬['\\', '\n'] <:+: t ∧ ¬['\\', '\r'] <:+: t) ∧
      (ofBuffer ⟨"u", t, 1⟩).text? ⟨0, 2⟩ true = some t := by
  let b : Buffer := ⟨"u", ['a', '\\', '\\', '\r', '\n', '\n', 'b'], 1⟩
  have hstop : 4 ≤ b.length := by decide
  obtain ⟨raw, t, -, ht, hjoined, hagain, -⟩ :=
    text?_isJoined b (s := ⟨0, 4⟩) (Nat.zero_le 4) hstop
  obtain rfl : t = ['a', '\\'] := Option.some.inj (ht.symm.trans (by decide))
  exact ⟨b, ['a', '\\'], rfl, ⟨Nat.zero_le 4, hstop⟩, ht, rfl, hjoined, hagain _ rfl⟩

end Document

end DotProperties
