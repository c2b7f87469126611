import DotProperties.Proofs.Event.Origin

/-!
# Ordinary characters

Most characters mean nothing to a scan. Such a character is part of the run that reads it
(`Mode.read_ordinary_run`), starts a key or a literal where one may start, and is skipped where
nothing is read (`Mode.read_ordinary`).
-/

namespace DotProperties

open Event

/-- The characters that mean something to a scan. -/
def signs : List Char :=
  ['\\', '=', ':', '$', '{', '}', '#', ';', '\uFEFF', ' ', '\t', '\n', '\r']

/-- A character without a meaning of its own. -/
def isOrdinary (c : Char) : Bool := !signs.contains c

/-- What holds of no sign tells that a character is ordinary. -/
theorem isOrdinary_of {P : Char → Bool} (h : signs.any P = false) {c : Char} (hc : P c = true) :
    isOrdinary c = true := by
  rw [isOrdinary, Bool.not_eq_true', List.contains_eq_mem, decide_eq_false_iff_not]
  exact fun hmem => List.any_eq_false.mp h c hmem hc

theorem ne_of_isOrdinary {c d : Char} (hc : isOrdinary c = true) (hd : isOrdinary d = false) :
    c ≠ d := by
  rintro rfl
  exact Bool.noConfusion (hc.symm.trans hd)

section Ordinary

variable {c : Char} (hc : isOrdinary c = true)
include hc

theorem not_isTerminator_of_isOrdinary : isTerminator c = false := by
  refine Bool.eq_false_iff.mpr fun h => ?_
  rcases Text.isTerminator_iff.mp h with rfl | rfl <;> exact absurd hc (by decide)

theorem not_isSpacing_of_isOrdinary : isSpacing c = false := by
  refine Bool.eq_false_iff.mpr fun h => ?_
  rcases Text.isSpacing_iff.mp h with rfl | rfl <;> exact absurd hc (by decide)

theorem isContent_of_isOrdinary : isContent c = true :=
  Mode.isContent_iff.mpr ⟨not_isSpacing_of_isOrdinary hc, not_isTerminator_of_isOrdinary hc,
    ne_of_isOrdinary hc (by decide), ne_of_isOrdinary hc (by decide)⟩

theorem not_stopsAt_of_isOrdinary (r : Run) : r.stopsAt c = false := by
  have hassign : c ≠ '=' ∧ c ≠ ':' :=
    ⟨ne_of_isOrdinary hc (by decide), ne_of_isOrdinary hc (by decide)⟩
  cases r with
  | key => simp [Run.stopsAt, hassign, not_isSpacing_of_isOrdinary hc]
  | literal => exact beq_false_of_ne (ne_of_isOrdinary hc (by decide))
  | expression => exact beq_false_of_ne (ne_of_isOrdinary hc (by decide))

namespace Mode

/-- An ordinary character is part of the run that reads it. -/
theorem read_ordinary_run (r : Run) (p : Place) :
    outline ((run r).read p c).1 = [] ∧ ((run r).read p c).2 = run r := by
  have hpart := Takes.part (p := p) r (ne_of_isOrdinary hc (by decide))
    (not_isTerminator_of_isOrdinary hc) (not_stopsAt_of_isOrdinary hc r)
  rw [hpart.read_eq]
  exact ⟨outline_report p c, rfl⟩

/-- An ordinary character is part of a run, of a comment or of nothing. -/
theorem read_ordinary (m : Mode) (p : Place) :
    (∃ r, (m.read p c).2 = run r) ∨ (m.read p c).2.inside = none := by
  have hreads := m.reads_read p c
  generalize (m.read p c).1 = es, (m.read p c).2 = m' at hreads
  induction hreads with
  | take htakes =>
    cases htakes with
    | escaped r | part r => exact Or.inl ⟨r, rfl⟩
    | opening => exact Or.inl ⟨.expression, rfl⟩
    | mark | comment | assign | beforeAssign | behindAssign | skipped | inComment =>
      exact Or.inr rfl
    | feed q hsign | backslash r hsign | literal hsign | dollar hsign | closing hsign =>
      exact (ne_of_isOrdinary hc (by decide) hsign).elim
    | indent q hspacing =>
      exact Bool.noConfusion (hspacing.symm.trans (not_isSpacing_of_isOrdinary hc))
    | lineEnd hterminator =>
      exact Bool.noConfusion (hterminator.symm.trans (not_isTerminator_of_isOrdinary hc))
  | turn _ _ ih => exact ih

/-- An ordinary character that is the first one of a line starts a property, unless a run goes on
there. -/
theorem read_ordinary_fresh {m : Mode} (hm : m.isFresh = true) (p : Place) :
    outline (m.read p c).1 = [Event.start .property p.offset, Event.start .key p.offset] ∧
      (m.read p c).2 = run .key := by
  obtain ⟨hevents, hmode⟩ := read_ordinary_run hc .key p
  have hproperty := (Turns.property (p := p) (isContent_of_isOrdinary hc)).read_eq
  have hmark : m.isByteOrderMark c = false := by
    simp [isByteOrderMark, ne_of_isOrdinary hc (d := '\uFEFF') (by decide)]
  rw [read_of_isFresh hm hmark (not_isTerminator_of_isOrdinary hc), hproperty, outline_append,
    hevents, hmode]
  exact ⟨rfl, rfl⟩

theorem read_ordinary_afterAssign (p : Place) :
    outline (afterAssign.read p c).1 = [Event.start .value p.offset] ∧
      (afterAssign.read p c).2 = run .literal := by
  obtain ⟨hevents, hmode⟩ := read_ordinary_run hc .literal p
  obtain ⟨hbetween, hmode'⟩ := read_between (not_isTerminator_of_isOrdinary hc) p
  rw [(Turns.value (not_isSpacing_of_isOrdinary hc)).read_eq, outline_append, hbetween, hevents,
    hmode', hmode]
  exact ⟨rfl, rfl⟩

end Mode

end Ordinary

end DotProperties
