import DotProperties.Proofs.Event.Boundary
import DotProperties.Proofs.Event.Nesting
import DotProperties.Proofs.Event.Ordinary
import DotProperties.Proofs.Event.Polls

/-!
# Reports on characters

A control character is ordinary, so it is part of a key or a fragment or of nothing that is read.
Behind it a scan is in a run exactly if a key or a fragment is open (`Mode.isRun_iff_stack`), and
then the character is reported. No character is reported twice (`Scanner.pairwise_invalid?_scan`).

A scan counts lines and characters as it goes, and a walk through the text looks ahead for the
second character of a terminator. The two agree at every character that is no second one, but for
the byte order mark that only the walk counts (`Scanner.Tracks`).
-/

namespace DotProperties

open Event

/-! ## Which characters are reported -/

theorem isOrdinary_of_isInvalid {c : Char} (hc : isInvalid c = true)
    (ht : isTerminator c = false) : isOrdinary c = true :=
  isOrdinary_of (P := fun c => isInvalid c && !isTerminator c) (by decide) (by simp [hc, ht])

theorem isControl_iff {c : Char} : (isInvalid c = true ∧ isTerminator c = false) ↔
    c < ' ' ∧ c ≠ '\t' ∧ c ≠ '\r' ∧ c ≠ '\n' := by
  simp only [isInvalid, isTerminator, Bool.and_eq_true, decide_eq_true_eq, bne_iff_ne,
    Bool.or_eq_false_iff, beq_eq_false_iff_ne, and_assoc]
  tauto

/-- Behind an ordinary character a scan is in a run exactly if a key or a fragment is open. -/
theorem Mode.isRun_iff_stack {m : Mode} (h : (∃ r, m = run r) ∨ m.inside = none) :
    m.isRun = true ↔ ∃ k ∈ [Construct.key, .literal, .expression], 0 < m.stack.count k := by
  rcases h with ⟨r, rfl⟩ | h
  · cases r <;> decide
  · rcases m with _ | (_ | _) | (_ | _) | (_ | _) | _ | _ | _ | _ | _ | _ | _ | _ <;>
      first | decide | exact nomatch h

/-- No character is reported twice, and an earlier one is reported first. -/
theorem Scanner.pairwise_invalid?_scan (s : Scanner) (t : Text) :
    ((Step.results (s.scan t)).filterMap invalid?).Pairwise (·.offset < ·.offset) := by
  induction t generalizing s with
  | nil =>
    rw [invalid?_scan_nil]
    exact .nil
  | cons c t ih =>
    rw [invalid?_scan_cons]
    split_ifs
    · refine List.pairwise_cons.mpr ⟨fun x hx => ?_, ih (s.next c)⟩
      obtain ⟨u, d, v, -, -, -, rfl⟩ := mem_invalid?_scan_iff.mp hx
      show s.place.offset < ((s.next c).after u).place.offset
      rw [after_offset, next_offset]
      omega
    · exact ih (s.next c)

/-! ## Where they are reported -/

namespace Scanner

/-- The scanner and a walk through the text are at the same place in front of `t`, the walk `n`
characters further on in the first line. Where `t` starts with the second character of a
terminator, the scanner has counted the line already. -/
structure Tracks (n : Nat) (s : Scanner) (q : Position) (t : Text) : Prop where
  /-- The lines agree. -/
  line : s.place.position.line = q.line + s.mode.overlap t
  /-- The characters agree. -/
  character : s.mode.overlap t = 0 →
    q.character = s.place.position.character + if q.line = 0 then n else 0

variable {n : Nat} {s : Scanner} {q : Position} {c : Char} {t : Text}

theorem character_next_of_terminator (hc : isTerminator c = true) :
    (s.next c).place.position.character = 0 := by
  simp only [Scanner.next, Place.after, hc, if_true]
  split_ifs <;> rfl

theorem character_next (hc : isTerminator c = false) (hmark : s.mode.isByteOrderMark c = false) :
    (s.next c).place.position.character = s.place.position.character + 1 := by
  have hcompletes := s.mode.not_completes_of_not_terminator hc
  simp [Scanner.next, Place.after, hc, hmark, hcompletes]

/-- They keep up with each other over a character. -/
theorem Tracks.next (h : s.Tracks n q (c :: t)) (hmark : s.mode.isByteOrderMark c = false) :
    (s.next c).Tracks n (q.after (Text.endsLine c t.head?)) t where
  line := by
    have hline := s.next_line c t
    rw [h.line] at hline
    cases hends : Text.endsLine c t.head? <;> simp only [hends, if_true, Bool.false_eq_true,
      if_false, Position.after] at hline ⊢ <;> omega
  character hoverlap := by
    obtain ⟨rfl, -⟩ | ⟨rfl, pending, hmode⟩ | ⟨hbom, -⟩ | ⟨hc, -⟩ :=
      Mode.read_cases s.place c s.mode
    · rw [character_next_of_terminator rfl]
      rfl
    · -- Behind a carriage return nothing is known to agree until the line feed is read.
      have hends : Text.endsLine '\r' t.head? = true := by
        rw [Scanner.next, hmode, Mode.overlap_afterReturn] at hoverlap
        simpa [Text.endsLine] using hoverlap
      rw [hends, character_next_of_terminator rfl]
      rfl
    · exact Bool.noConfusion (hbom.symm.trans hmark)
    · have hbefore : s.mode.overlap (c :: t) = 0 := by
        rw [Mode.overlap_cons, s.mode.not_completes_of_not_terminator hc]
        rfl
      have hcharacter := h.character hbefore
      rw [Text.endsLine_of_not_terminator hc, character_next hc hmark]
      simp only [Position.after, Bool.false_eq_true, if_false]
      omega

/-- They keep up with each other over a text. -/
theorem Tracks.after {u : Text} (h : s.Tracks n q (u ++ t))
    (hmark : ∀ c ∈ u.head?, s.mode.isByteOrderMark c = false) :
    ∃ q', Text.walk q (u ++ t) u.length = some q' ∧ (s.after u).Tracks n q' t := by
  induction u generalizing s q with
  | nil => exact ⟨q, by cases t <;> rfl, h⟩
  | cons c u ih =>
    obtain ⟨q', hwalk, htracks⟩ := ih (h.next (hmark c rfl))
      fun d _ => s.not_isByteOrderMark_next c d
    exact ⟨q', hwalk, htracks⟩

/-- A scan keeps up with the positions of a text. -/
theorem exists_tracks {u v : Text} (hv : v.head? ≠ some '\uFEFF') :
    ∃ q, Text.positionAt? (u ++ v) u.length = some q ∧
      (initial.after u).Tracks (Text.mark (u ++ v)).length q v := by
  cases u with
  | nil =>
    have hmark : Text.mark v = [] := if_neg hv
    refine ⟨⟨0, 0⟩, by cases v <;> rfl, ?_⟩
    rw [List.nil_append, hmark]
    exact ⟨by cases v <;> rfl, fun _ => rfl⟩
  | cons c u =>
    by_cases hc : c = '\uFEFF'
    · subst hc
      have htracks : (initial.next '\uFEFF').Tracks 1 ⟨0, 1⟩ (u ++ v) := by
        refine ⟨?_, fun _ => rfl⟩
        show 0 = 0 + (Mode.lineStart none).overlap (u ++ v)
        rw [Mode.overlap_lineStart]
      exact htracks.after fun d _ => initial.not_isByteOrderMark_next '\uFEFF' d
    · have htracks : initial.Tracks 0 ⟨0, 0⟩ (c :: u ++ v) := ⟨rfl, fun _ => rfl⟩
      rw [List.cons_append, Text.mark_cons hc]
      refine htracks.after (u := c :: u) ?_
      simp [Mode.isByteOrderMark, hc]

end Scanner

/-- A report stands where its offset does, a byte order mark on the same line not counted. -/
theorem Event.positionAt?_of_invalid {t : Text} {x : InvalidCharacter}
    (h : x ∈ (ofText t).filterMap invalid?) : t.positionAt? x.offset =
      some ⟨x.position.line,
        x.position.character + if x.position.line = 0 then t.mark.length else 0⟩ := by
  rw [invalid?_ofText] at h
  obtain ⟨u, c, v, rfl, hinvalid, hrun, rfl⟩ := Scanner.mem_invalid?_scan_iff.mp h
  have hterminator := Mode.not_isTerminator_of_isRun hrun
  have hmark : (c :: v).head? ≠ some '\uFEFF' := by
    rintro hmark
    obtain rfl := Option.some.inj hmark
    exact nomatch hinvalid
  have hoverlap : (Scanner.initial.after u).mode.overlap (c :: v) = 0 := by
    rw [Mode.overlap_cons, Mode.not_completes_of_not_terminator _ hterminator]
    rfl
  obtain ⟨q, hq, htracks⟩ := Scanner.exists_tracks (u := u) hmark
  have hline := htracks.line
  have hcharacter := htracks.character hoverlap
  rw [hoverlap, Nat.add_zero] at hline
  dsimp only
  rw [Scanner.offset_after_initial, hq, hline, ← hcharacter]

end DotProperties
