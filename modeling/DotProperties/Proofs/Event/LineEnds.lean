import DotProperties.Proofs.Event.Locality
import DotProperties.Proofs.Text.LineEnds

/-!
# Events and line ends

The events of a text with a line feed for every terminator are those of the text, moved to their
offsets in the unified text (`Event.ofText_unified`). Positions stay, since a terminator of two
characters counts as one line.

Behind a carriage return a scan is as good as behind a line feed (`Mode.settled`), as long as no
line feed comes that belongs to the same terminator.
-/

namespace DotProperties

open Event

namespace Mode

/-- The mode with a terminator complete that a line feed might have belonged to. -/
def settled : Mode → Mode
  | afterReturn pending => lineStart pending
  | m => m

theorem onLineEnd_settled (m : Mode) (o : Nat) : m.settled.onLineEnd o = m.onLineEnd o := by
  cases m <;> rfl

theorem onTextEnd_settled (m : Mode) (o : Nat) : m.settled.onTextEnd o = m.onTextEnd o := by
  cases m <;> rfl

theorem not_completes_settled (m : Mode) (c : Char) : m.settled.completesTerminator c = false := by
  cases m <;> rfl

theorem isByteOrderMark_settled (m : Mode) (c : Char) :
    m.settled.isByteOrderMark c = m.isByteOrderMark c := by
  cases m <;> rfl

theorem settled_read_of_not_terminator (m : Mode) (p : Place) {c : Char}
    (hc : isTerminator c = false) : (m.read p c).2.settled = (m.read p c).2 := by
  have hnot := not_completes_read p c '\n' m hc
  cases h : (m.read p c).2 with
  | afterReturn pending =>
    rw [h] at hnot
    exact Bool.noConfusion hnot
  | start | lineStart | indent | run | escape | afterKey | skipped | afterAssign | between | dollar
  | comment => rfl

variable {m : Mode} {c : Char} (h : m.completesTerminator c = false)
include h

/-- A character that completes no terminator is read as if it were complete. -/
theorem read_settled (p : Place) : m.settled.read p c = m.read p c := by
  cases m with
  | afterReturn q =>
    exact (Turns.lineStart q).read_eq.trans
      (Turns.afterReturn q (ne_of_beq_false h)).read_eq.symm
  | _ => rfl

theorem settled_read (hc : c ≠ '\r') (p : Place) : (m.read p c).2.settled = (m.read p c).2 := by
  cases hterminator : isTerminator c with
  | true =>
    obtain rfl := (Text.isTerminator_iff.mp hterminator).resolve_right hc
    rw [read_of_terminator h hterminator]
    rfl
  | false => exact m.settled_read_of_not_terminator p hterminator

end Mode

theorem Place.position_after_settled {m : Mode} {c : Char} (h : m.completesTerminator c = false)
    {p p' : Place} (hposition : p'.position = p.position) :
    (p'.after m.settled c).position = (p.after m c).position := by
  simp only [after, h, Mode.not_completes_settled, Mode.isByteOrderMark_settled, hposition]

/-- The place `p` in front of `t` is moved to `p'`, and so are the places in `t`, as far as the
unified text goes. -/
structure Place.Unifies (f : Nat → Nat) (t : Text) (p p' : Place) : Prop where
  position : p'.position = p.position
  offset : ∀ k, f (p.offset + k) = p'.offset + t.unifiedOffset k

namespace Place.Unifies

variable {f : Nat → Nat} {t : Text} {p p' : Place}

theorem moves (h : p.Unifies f t p') : p.Moves f id p' where
  offset := by simpa [Text.unifiedOffset_zero] using h.offset 0
  behind := by simpa [Text.unifiedOffset_one] using h.offset 1
  position := h.position.symm

/-- Behind a character of the text that is one of the unified text too. -/
theorem cons {c : Char} (h : p.Unifies f (c :: t) p') (hc : c = '\r' → t.head? ≠ some '\n')
    {q q' : Place} (hposition : q'.position = q.position) (hoffset : q.offset = p.offset + 1)
    (hoffset' : q'.offset = p'.offset + 1) : q.Unifies f t q' where
  position := hposition
  offset k := by
    have hk := h.offset (k + 1)
    rw [Text.unifiedOffset_cons hc] at hk
    rw [hoffset, hoffset', Nat.add_assoc, Nat.add_comm 1 k, hk]
    omega

/-- Behind a terminator of two characters. -/
theorem pair (h : p.Unifies f ('\r' :: '\n' :: t) p') {q q' : Place}
    (hposition : q'.position = q.position) (hoffset : q.offset = p.offset + 2)
    (hoffset' : q'.offset = p'.offset + 1) : q.Unifies f t q' where
  position := hposition
  offset k := by
    have hk := h.offset (k + 2)
    rw [Text.unifiedOffset_pair] at hk
    rw [hoffset, hoffset', Nat.add_assoc, Nat.add_comm 2 k, hk]
    omega

end Place.Unifies

/-- The start of the line behind a terminator. -/
def Place.nextLine (p : Place) : Place := ⟨p.offset + 1, p.position.line + 1, 0⟩

namespace Scanner

variable (m : Mode) (p : Place) (t : Text)

theorem results_scan_return : Step.results (Scanner.scan ⟨m, p⟩ ('\r' :: t)) =
    (m.onLineEnd p.offset).1 ++
      Step.results (Scanner.scan ⟨.afterReturn (m.onLineEnd p.offset).2, p.nextLine⟩ t) := by
  have hmark : m.isByteOrderMark '\r' = false := by cases m <;> rfl
  simp [results_scan_cons, next, Mode.read, Place.after, Place.nextLine, m.not_completes_return,
    hmark, isTerminator]

theorem results_scan_feed : Step.results (Scanner.scan ⟨m.settled, p⟩ ('\n' :: t)) =
    (m.onLineEnd p.offset).1 ++
      Step.results (Scanner.scan ⟨.lineStart (m.onLineEnd p.offset).2, p.nextLine⟩ t) := by
  have hmark : m.isByteOrderMark '\n' = false := by cases m <;> rfl
  simp [results_scan_cons, next, Mode.read, Place.after, Place.nextLine, isTerminator, hmark,
    Mode.not_completes_settled, Mode.isByteOrderMark_settled, Mode.onLineEnd_settled]

/-- The line feed of a terminator of two characters gives no event. -/
theorem results_scan_pair (pending : Option Run) :
    Step.results (Scanner.scan ⟨.afterReturn pending, p⟩ ('\n' :: t)) =
      Step.results (Scanner.scan ⟨.lineStart pending, p.offset + 1, p.position.line, 0⟩ t) := rfl

variable {m p t}

/-- A text with its terminators unified gives the events of the text, moved. -/
theorem results_scan_unified {f : Nat → Nat} {p' : Place} (hplace : p.Unifies f t p')
    (hwhole : ∀ c ∈ t.head?, m.completesTerminator c = false) :
    Step.results (Scanner.scan ⟨m.settled, p'⟩ t.unified) =
      (Step.results (Scanner.scan ⟨m, p⟩ t)).map (relocate f id) := by
  have hline {m : Mode} {t : Text} {p p' : Place} (h : p.Unifies f t p') :
      m.onLineEnd p'.offset = ((m.onLineEnd p.offset).1.map (relocate f id),
        (m.onLineEnd p.offset).2) := Mode.onLineEnd_relocate h.moves m
  have hnextLine {p p' : Place} (h : p'.position = p.position) :
      p'.nextLine.position = p.nextLine.position := by rw [Place.nextLine, h, Place.nextLine]
  fun_induction Text.unified t generalizing m p p' with
  | case1 =>
    rw [results_scan_nil, results_scan_nil, Mode.onTextEnd_settled, List.map_append,
      Mode.onTextEnd_relocate hplace.moves]
    simp [relocate, hplace.moves.offset]
  | case2 t ih =>
    have hrest := @ih (.lineStart (m.onLineEnd p.offset).2) ⟨p.offset + 2, p.position.line + 1, 0⟩ _
      (hplace.pair (hnextLine hplace.position) rfl rfl) fun _ _ => rfl
    rw [results_scan_feed, results_scan_return, results_scan_pair, hline hplace, List.map_append]
    exact congrArg (_ ++ ·) hrest
  | case3 t ht ih =>
    have halone : t.head? ≠ some '\n' := Text.head?_ne_feed ht
    have hrest := @ih (.afterReturn (m.onLineEnd p.offset).2) _ _
      (hplace.cons (fun _ => halone) (hnextLine hplace.position) rfl rfl)
      fun c hc => beq_false_of_ne fun h => halone (h ▸ hc)
    rw [results_scan_feed, results_scan_return, hline hplace, List.map_append]
    exact congrArg (_ ++ ·) hrest
  | case4 c t _ hc ih =>
    have hcompletes := hwhole c rfl
    have hread := Mode.read_relocate hplace.moves m c
    have hposition := Place.position_after_settled hcompletes hplace.position
    have hsettled := Mode.settled_read hcompletes hc p
    have hrest := @ih (m.read p c).2 _ _
      (hplace.cons (fun h => (hc h).elim) hposition rfl rfl) fun d _ => by
        rw [← hsettled]
        exact Mode.not_completes_settled _ d
    rw [hsettled] at hrest
    rw [results_scan_cons, results_scan_cons, List.map_append, next, next, ← hrest,
      Mode.read_settled hcompletes, hread]

end Scanner

/-- The events of a text with its terminators unified are those of the text, moved. -/
theorem Event.ofText_unified (t : Text) :
    ofText t.unified = (ofText t).map (relocate t.unifiedOffset id) := by
  have hplace : Scanner.initial.place.Unifies t.unifiedOffset t Scanner.initial.place :=
    ⟨rfl, fun k => by simp [Scanner.initial]⟩
  rw [ofText_eq, ofText_eq, List.map_cons, relocate, Text.unifiedOffset_zero]
  exact congrArg _ (Scanner.results_scan_unified (m := .start) hplace fun _ _ => rfl)

end DotProperties
