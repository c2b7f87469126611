import DotProperties.Proofs.Event.Grammar

/-!
# Where events stand

The offsets of a stream of events never decrease and never leave the text, and an event that
reports a character stands on one : its offset is below the length. `Placed lo hi es` says so
of the events `es` of a stretch of the text from `lo` to `hi`, and two stretches that meet
can be put together (`Placed.append`).

The events of one character stand at the character or right behind it
(`Mode.Reads.placed`), and those of a scan in the text still to be read
(`Scanner.placed_scan`). Together with the grammar this is `Event.run_wellFormed`.
-/

namespace DotProperties

/-- The event reports a single character of the text. -/
def Event.reportsCharacter : Event → Bool
  | assign _ | invalid _ => true
  | _ => false

open Event

/-- The offsets of `es` do not decrease and lie from `lo` to `hi`. An event that reports a
character lies before `hi`. -/
def Placed (lo hi : Nat) : List Event → Prop
  | [] => lo ≤ hi
  | e :: es => lo ≤ e.offset ∧ (e.reportsCharacter → e.offset < hi) ∧ Placed e.offset hi es

namespace Placed

variable {lo mid hi : Nat} {es es' : List Event}

theorem le : ∀ {lo : Nat} {es : List Event}, Placed lo hi es → lo ≤ hi
  | _, [], h => h
  | _, _ :: _, h => Nat.le_trans h.1 h.2.2.le

theorem weaken (hlo : lo ≤ mid) (h : Placed mid hi es) : Placed lo hi es := by
  cases es with
  | nil => exact Nat.le_trans hlo h
  | cons e es => exact ⟨Nat.le_trans hlo h.1, h.2⟩

theorem append : ∀ {lo : Nat} {es : List Event}, Placed lo mid es → Placed mid hi es' →
    Placed lo hi (es ++ es')
  | _, [], h, h' => h'.weaken h
  | _, _ :: _, h, h' =>
    ⟨h.1, fun he => Nat.lt_of_lt_of_le (h.2.1 he) h'.le, h.2.2.append h'⟩

theorem lo_le : ∀ {lo : Nat} {es : List Event}, Placed lo hi es → ∀ e ∈ es, lo ≤ e.offset
  | _, [], _, e, he => by simp at he
  | _, e' :: es, h, e, he => by
    rcases List.mem_cons.mp he with rfl | he
    · exact h.1
    · exact Nat.le_trans h.1 (h.2.2.lo_le e he)

theorem pairwise : ∀ {lo : Nat} {es : List Event}, Placed lo hi es →
    es.Pairwise fun e e' => e.offset ≤ e'.offset
  | _, [], _ => .nil
  | _, _ :: _, h => .cons h.2.2.lo_le h.2.2.pairwise

theorem le_hi : ∀ {lo : Nat} {es : List Event}, Placed lo hi es → ∀ e ∈ es, e.offset ≤ hi
  | _, [], _, e, he => by simp at he
  | _, e' :: es, h, e, he => by
    rcases List.mem_cons.mp he with rfl | he
    · exact h.2.2.le
    · exact h.2.2.le_hi e he

theorem lt_hi : ∀ {lo : Nat} {es : List Event}, Placed lo hi es →
    ∀ e ∈ es, e.reportsCharacter → e.offset < hi
  | _, [], _, e, he, _ => by simp at he
  | _, e' :: es, h, e, he, hr => by
    rcases List.mem_cons.mp he with rfl | he
    · exact h.2.1 hr
    · exact h.2.2.lt_hi e he hr

end Placed

/-! ## One character -/

theorem placed_report (p : Place) (c : Char) :
    Placed p.offset (p.offset + 1) (report p c) := by
  unfold report
  split_ifs <;> simp [Placed, offset]

namespace Mode

theorem placed_close (m : Mode) (o : Nat) : Placed o o (m.close o) := by
  unfold close
  induction m.stack.reverse with
  | nil => exact Nat.le_refl o
  | cons k ks ih => exact ⟨Nat.le_refl o, nofun, ih⟩

theorem placed_onTextEnd (m : Mode) (o : Nat) : Placed o o (m.onTextEnd o) := by
  obtain hend | ⟨-, hend⟩ := m.onTextEnd_cases <;> rw [hend]
  · exact placed_close m o
  · exact (placed_close m o).append ⟨Nat.le_refl o, nofun, Nat.le_refl o⟩

variable {m m' : Mode} {p : Place} {c : Char} {es : List Event}

theorem EndsLine.placed {o : Nat} {outcome : List Event × Option Run}
    (h : EndsLine o m outcome) : Placed o o outcome.1 := by
  cases h with
  | continued r => exact Nat.le_refl o
  | value => exact ⟨Nat.le_refl o, nofun, placed_close between o⟩
  | blank => exact (placed_close m o).append ⟨Nat.le_refl o, nofun, Nat.le_refl o⟩
  | closed => exact placed_close m o

theorem Turns.placed (h : Turns p c m es m') : Placed p.offset p.offset es := by
  cases h with
  | start | lineStart | afterReturn | resume | skip => exact Nat.le_refl p.offset
  | property | key | value | literal | dollar => simp [Placed, offset, reportsCharacter]

theorem Takes.placed (h : Takes p c m es m') : Placed p.offset (p.offset + 1) es := by
  have hnext : Placed p.offset (p.offset + 1) [] := Nat.le_succ p.offset
  cases h with
  | feed | mark | indent | backslash | opening | beforeAssign | behindAssign | skipped
  | inComment => exact hnext
  | lineEnd _ _ hend => simpa using hend.placed.append hnext
  | comment q => exact (placed_close (.indent q) p.offset).append ⟨Nat.le_refl _, nofun, hnext⟩
  | escaped | part => exact placed_report p c
  | literal | dollar | closing | assign => simp [Placed, offset, reportsCharacter]

/-- The events of a character stand at it or right behind it. -/
theorem Reads.placed (h : Reads p c m es m') : Placed p.offset (p.offset + 1) es := by
  induction h with
  | take h => exact h.placed
  | turn h _ ih => exact h.placed.append ih

end Mode

/-! ## Whole texts -/

/-- The events of a scan stand in the text that is still to be read. -/
theorem Scanner.placed_scan (s : Scanner) (t : Text) :
    Placed s.place.offset (s.place.offset + t.length) (Step.results (s.scan t)) := by
  induction t generalizing s with
  | nil =>
    rw [results_scan_nil]
    refine (s.mode.placed_onTextEnd s.place.offset).append ?_
    simp [Placed, offset, reportsCharacter]
  | cons c t ih =>
    have hlen : s.place.offset + (c :: t).length = (s.next c).place.offset + t.length := by
      simp only [next_offset, List.length_cons]
      omega
    rw [results_scan_cons, hlen]
    exact (s.mode.reads_read s.place c).placed.append (ih (s.next c))

theorem Event.placed_ofText (t : Text) : Placed 0 t.length (ofText t) := by
  have h := Scanner.initial.placed_scan t
  rw [show Scanner.initial.place.offset = 0 from rfl, Nat.zero_add] at h
  exact ⟨Nat.le_refl 0, by simp [reportsCharacter], h⟩

/-- The events of a document of `n` characters, each in its place. -/
structure Event.WellFormed (n : Nat) (es : List Event) : Prop where
  /-- They are a word of the grammar. -/
  document : IsDocument n es
  /-- Their offsets do not decrease. -/
  ordered : es.Pairwise fun e e' => e.offset ≤ e'.offset
  /-- No offset leaves the text. -/
  within : ∀ e ∈ es, e.offset ≤ n
  /-- Delimiters and invalid characters stand on a character of the text. -/
  characters : ∀ e ∈ es, e.reportsCharacter → e.offset < n

/-- A scan that is not cancelled reports a document as long as the text. -/
theorem Event.run_wellFormed {σ : Type} (check : Checker σ) (s : σ) (t : Text)
    (h : (Step.run check s (scan t)).cancelled = false) :
    WellFormed t.length (Step.run check s (scan t)).results := by
  have hplaced := placed_ofText t
  rw [Step.run_results h]
  exact ⟨isDocument_ofText t, hplaced.pairwise, hplaced.le_hi, hplaced.lt_hi⟩

/-- A comment line closes a continued key, and the end of the text an open expression. -/
theorem Event.run_wellFormed_unclosed :
    ∃ t : Text, t = ['k', '\\', '\n', '#', '\r', '\n', 'x', '=', '\x01', '$', '{', 'y'] ∧
      (Step.run (Checker.after none) 0 (scan t)).cancelled = false ∧
      WellFormed t.length (Step.run (Checker.after none) 0 (scan t)).results :=
  ⟨_, rfl, by decide, run_wellFormed (Checker.after none) 0 _ (by decide)⟩

end DotProperties
