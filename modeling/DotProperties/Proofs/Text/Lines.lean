import Mathlib.Data.List.DropRight
import DotProperties.Text.Buffer
import DotProperties.Proofs.Text.Continuation

/-!
# Offsets and positions

An offset is a boundary of a text (`Text.IsBoundary`) if it does not leave the text and does not
stand between the two characters of a terminator. Every boundary has a position, and that position
has the boundary for its offset (`Text.exists_positionAt`). So a span between two boundaries is
found again from its range (`Buffer.exists_rangeOf_bounds`).

Between the two characters of a terminator there is a position too, but none that leads back : it
is one character behind the content of its line.
-/

namespace DotProperties

namespace Text

/-- The cut between `u` and `v` goes through a terminator. -/
def Severs (u v : Text) : Prop := u.getLast? = some '\r' ∧ v.head? = some '\n'

/-- The text can be cut at an offset without cutting a terminator. -/
def IsBoundary (t : Text) (o : Nat) : Prop :=
  ∃ u v, t = u ++ v ∧ u.length = o ∧ ¬Severs u v

/-- The span lies in the text, between two boundaries. -/
structure Bounds (t : Text) (s : Span) : Prop where
  /-- Its ends are in order. -/
  ordered : s.start ≤ s.stop
  /-- It starts at a boundary. -/
  start : t.IsBoundary s.start
  /-- It stops at a boundary. -/
  stop : t.IsBoundary s.stop

theorem exists_split {w : Text} {i j : Nat} (hij : i ≤ j) (hj : j ≤ w.length) :
    ∃ x y z, w = x ++ (y ++ z) ∧ x.length = i ∧ x.length + y.length = j := by
  refine ⟨w.take i, (w.take j).drop i, w.drop j, ?_, ?_, ?_⟩
  · have htake : (w.take j).take i = w.take i := by rw [List.take_take, Nat.min_eq_left hij]
    rw [← List.append_assoc, ← htake, List.take_append_drop, List.take_append_drop]
  · rw [List.length_take]
    omega
  · rw [List.length_drop, List.length_take, List.length_take]
    omega

/-- The text in front of and behind its character at `o`. -/
theorem exists_cons_of_getElem? {t : Text} {o : Nat} {c : Char} (h : t[o]? = some c) :
    ∃ u v, t = u ++ c :: v ∧ u.length = o := by
  obtain ⟨hlt, rfl⟩ := List.getElem?_eq_some_iff.mp h
  refine ⟨t.take o, t.drop (o + 1), ?_, List.length_take_of_le (Nat.le_of_lt hlt)⟩
  rw [← List.drop_eq_getElem_cons hlt, List.take_append_drop]

/-- A stretch of a text is exchanged. -/
theorem splice_stretch (u old v new : Text) :
    splice (u ++ (old ++ v)) ⟨u.length, u.length + old.length⟩ new = u ++ (new ++ v) := by
  simp [splice, List.drop_append]

theorem IsBoundary.le_length {t : Text} {o : Nat} (h : t.IsBoundary o) : o ≤ t.length := by
  obtain ⟨u, v, rfl, rfl, -⟩ := h
  rw [List.length_append]
  exact Nat.le_add_right _ _

theorem isBoundary_zero (t : Text) : t.IsBoundary 0 := ⟨[], t, rfl, rfl, nofun⟩

theorem ne_return {c : Char} (h : isTerminator c = false) : c ≠ '\r' := by
  rintro rfl
  exact Bool.noConfusion h

/-- Behind a character that is no line end there is a boundary. -/
theorem isBoundary_behind {u v : Text} {c : Char} (hc : isTerminator c = false) :
    IsBoundary (u ++ c :: v) (u.length + 1) := by
  refine ⟨u ++ [c], v, by simp, by simp, fun h => ne_return hc ?_⟩
  simpa using h.1

theorem not_isBlank_of_trimEnd {t u : Text} {c : Char} (h : t.trimEnd = u ++ [c]) :
    isBlank c = false := by
  have hne : t.rdropWhile isBlank ≠ [] := by
    rw [show t.rdropWhile isBlank = u ++ [c] from h]
    simp
  have hlast := List.rdropWhile_last_not isBlank t hne
  simp only [show t.rdropWhile isBlank = u ++ [c] from h, List.getLast_concat] at hlast
  simpa using hlast

/-- Behind the last character that is not blank there is a boundary. -/
theorem isBoundary_trimEnd (t : Text) : t.IsBoundary t.trimEnd.length := by
  have hsplit : t.rdropWhile isBlank ++ t.rtakeWhile isBlank = t :=
    List.rdropWhile_append_rtakeWhile
  refine ⟨t.trimEnd, t.rtakeWhile isBlank, hsplit.symm, rfl, fun h => ?_⟩
  obtain ⟨u, hu⟩ := List.getLast?_eq_some_iff.mp h.1
  exact Bool.noConfusion (not_isBlank_of_trimEnd hu)

theorem isBoundary_cons_succ {c : Char} {t : Text} {o : Nat} (h : IsBoundary (c :: t) (o + 1)) :
    t.IsBoundary o ∧ (o = 0 → ¬(c = '\r' ∧ t.head? = some '\n')) := by
  obtain ⟨u, v, ht, hlength, hwhole⟩ := h
  cases u with
  | nil => exact nomatch hlength
  | cons d u =>
    obtain ⟨rfl, rfl⟩ := List.cons.inj ht
    refine ⟨⟨u, v, rfl, Nat.succ.inj hlength, fun hsevers => hwhole ⟨?_, hsevers.2⟩⟩, ?_⟩
    · rw [List.getLast?_cons, hsevers.1]
      rfl
    · rintro rfl ⟨rfl, hhead⟩
      obtain rfl := List.eq_nil_of_length_eq_zero (Nat.succ.inj hlength)
      exact hwhole ⟨rfl, hhead⟩

/-- Every offset up to the end of a text has a position. -/
theorem isSome_walk {t : Text} {o : Nat} (h : o ≤ t.length) (p : Position) :
    (walk p t o).isSome = true := by
  induction t generalizing o p with
  | nil =>
    obtain rfl := Nat.le_zero.mp h
    rfl
  | cons c t ih =>
    cases o with
    | zero => rfl
    | succ o => exact ih (Nat.le_of_succ_le_succ h) _

theorem lineFrom?_zero (b : Nat) (t : Text) : lineFrom? b t 0 = some (b, t) := by
  cases t <;> rfl

/-- The position `q` is on the line of `p`, `o` characters further on, or it is on a later line
that can be found from the offset `b` of the text, `o` characters behind `b`. -/
def Leads (b : Nat) (p : Position) (t : Text) (o : Nat) (q : Position) : Prop :=
  q = ⟨p.line, p.character + o⟩ ∧ o ≤ t.content.length ∨
    ∃ n start rest, q.line = p.line + (n + 1) ∧ lineFrom? b t (n + 1) = some (start, rest) ∧
      start + q.character = b + o ∧ q.character ≤ rest.content.length

theorem content_cons {c : Char} (hc : isTerminator c = false) (t : Text) :
    content (c :: t) = c :: t.content := by
  simp [content, hc]

theorem content_of_terminator {c : Char} (hc : isTerminator c = true) (t : Text) :
    content (c :: t) = [] := by
  simp [content, hc]

/-- A boundary has a position that leads back to it. -/
theorem leads_of_walk {b : Nat} {p q : Position} {t : Text} {o : Nat} (hboundary : t.IsBoundary o)
    (h : walk p t o = some q) : Leads b p t o q := by
  induction t generalizing b p o with
  | nil =>
    obtain rfl := Nat.le_zero.mp hboundary.le_length
    exact Or.inl ⟨(Option.some.inj h).symm, Nat.zero_le _⟩
  | cons c t ih =>
    cases o with
    | zero => exact Or.inl ⟨(Option.some.inj h).symm, Nat.zero_le _⟩
    | succ o =>
      obtain ⟨hrest, hwhole⟩ := isBoundary_cons_succ hboundary
      rw [walk, Position.after] at h
      by_cases hends : endsLine c t.head? = true
      · -- The next line starts behind `c`.
        rw [if_pos hends] at h
        have hline (n : Nat) : lineFrom? b (c :: t) (n + 1) = lineFrom? (b + 1) t n := by
          rw [lineFrom?, if_pos hends]
        rcases ih (b := b + 1) hrest h with ⟨rfl, hle⟩ | ⟨n, start, rest, hq, hfrom, hoffset, hle⟩
        · refine Or.inr ⟨0, b + 1, t, rfl, (hline 0).trans (lineFrom?_zero _ t), ?_, ?_⟩ <;>
            simp only <;> omega
        · refine Or.inr ⟨n + 1, start, rest, ?_, (hline _).trans hfrom, ?_, hle⟩
          · rw [hq]
            simp only
            omega
          · omega
      · rw [if_neg hends] at h
        have hline (n : Nat) : lineFrom? b (c :: t) (n + 1) = lineFrom? (b + 1) t (n + 1) := by
          rw [lineFrom?, if_neg hends]
        rcases ih (b := b + 1) hrest h with ⟨rfl, hle⟩ | ⟨n, start, rest, hq, hfrom, hoffset, hle⟩
        · refine Or.inl ⟨by simp only [Position.mk.injEq, true_and]; omega, ?_⟩
          cases hc : isTerminator c with
          | false =>
            rw [content_cons hc]
            exact Nat.succ_le_succ hle
          | true =>
            -- A line feed completes the terminator, and the boundary is not in front of it.
            obtain ⟨rfl, hhead⟩ : c = '\r' ∧ t.head? = some '\n' := by
              rcases isTerminator_iff.mp hc with rfl | rfl
              · exact (hends rfl).elim
              · simpa [endsLine] using hends
            obtain ⟨t, rfl⟩ := List.head?_eq_some_iff.mp hhead
            rw [content_of_terminator rfl] at hle
            exact (hwhole (Nat.le_zero.mp hle) ⟨rfl, rfl⟩).elim
        · exact Or.inr ⟨n, start, rest, hq, (hline n).trans hfrom, by omega, hle⟩

/-- A boundary has a position, and this position has the boundary for its offset. -/
theorem exists_positionAt {t : Text} {o : Nat} (h : t.IsBoundary o) :
    ∃ p, t.positionAt? o = some p ∧ t.offsetAt p = .ok o := by
  obtain ⟨q, hq⟩ := Option.isSome_iff_exists.mp (isSome_walk h.le_length ⟨0, 0⟩)
  refine ⟨q, hq, ?_⟩
  rcases leads_of_walk (b := 0) h hq with ⟨rfl, hle⟩ | ⟨n, start, rest, hline, hfrom, hoffset, hle⟩
  · have hzero : (0 : Nat) + o ≤ t.content.length := by omega
    simp only [offsetAt, lineFrom?]
    rw [if_pos hzero]
    simp
  · rw [Nat.zero_add] at hline hoffset
    rw [offsetAt, hline, hfrom]
    dsimp only
    rw [if_pos hle, hoffset]

end Text

namespace Buffer

variable {b : Buffer} {s : Span}

/-- A span between boundaries has a range, and this range has the span. -/
theorem exists_rangeOf_bounds (h : b.text.Bounds s) :
    ∃ range, b.rangeOf s = .ok range ∧ b.spanOf range = .ok s := by
  obtain ⟨p, hp, hstart⟩ := Text.exists_positionAt h.start
  obtain ⟨q, hq, hstop⟩ := Text.exists_positionAt h.stop
  have hp' : b.positionAt s.start = .ok p := by rw [positionAt, hp]
  have hq' : b.positionAt s.stop = .ok q := by rw [positionAt, hq]
  refine ⟨⟨p, q⟩, ?_, ?_⟩
  · rw [rangeOf, hp', hq']
    rfl
  · rw [spanOf, Text.spanOf, hstart, hstop]
    rfl

end Buffer

end DotProperties
