import DotProperties.Proofs.Event.Origin
import DotProperties.Proofs.Text.Lines

/-!
# Events and terminators

No event stands between the two characters of a terminator (`Event.isBoundary_offset`). Behind a
carriage return a scan waits for the line feed that would complete the terminator, and reads it
without an event.

A character that may not stand in a key or a value is reported if one is open behind it
(`Mode.Reads.reports`). Such a character ends no line (`Event.exists_of_invalid`), so there is a
boundary behind it too.
-/

namespace DotProperties

open Event

/-- Behind a carriage return a line feed still belongs to the terminator. -/
theorem Scanner.after_return {u : Text} (h : u.getLast? = some '\r') :
    ∃ pending, (initial.after u).mode = .afterReturn pending := by
  obtain ⟨u, rfl⟩ := List.getLast?_eq_some_iff.mp h
  refine ⟨((initial.after u).mode.onLineEnd (initial.after u).place.offset).2, ?_⟩
  rw [after_append]
  simp [next, Mode.read, Mode.not_completes_return, isTerminator]

/-- Every event of a text stands at a boundary. -/
theorem Event.isBoundary_offset {t : Text} {e : Event} (h : e ∈ ofText t) :
    t.IsBoundary e.offset := by
  have hle := (placed_ofText t).le_hi e h
  refine ⟨t.take e.offset, t.drop e.offset, (List.take_append_drop ..).symm,
    List.length_take_of_le hle, ?_⟩
  rintro ⟨hreturn, hfeed⟩
  obtain ⟨pending, hmode⟩ := Scanner.after_return hreturn
  have horigin : e.Origin (t.take e.offset) (t.drop e.offset) :=
    exists_origin (by rwa [List.take_append_drop]) (List.length_take_of_le hle).symm
  cases horigin with
  | start hstart =>
    subst hstart
    exact nomatch hreturn
  | character c v hv hmem =>
    obtain rfl : c = '\n' := by simpa [hv] using hfeed
    rw [hmode] at hmem
    exact nomatch hmem
  | brace _ hbetween => exact nomatch hmode.symm.trans hbetween
  | textEnd hnil =>
    rw [hnil] at hfeed
    exact nomatch hfeed

/-! ## Invalid characters -/

/-- A scan is in a run. -/
def Mode.isRun : Mode → Bool
  | run _ => true
  | _ => false

/-- Of what comes of reading `c` at `p`, the reports : there is one if `c` may not stand in a run
and a run goes on behind it, and it is about `c`. -/
def Mode.Reports (p : Place) (c : Char) (outcome : List Event × Mode) : Prop :=
  outcome.1.filterMap invalid? =
    if isInvalid c && outcome.2.isRun then [⟨c, p.offset, p.position⟩] else []

namespace Mode

variable {p : Place} {c : Char} {m m' : Mode} {es : List Event}

theorem Reports.quiet (hes : es.filterMap invalid? = []) (hm : m.isRun = false) :
    Reports p c (es, m) := by
  simp [Reports, hes, hm]

theorem reports_report (r : Run) : Reports p c (report p c, run r) := by
  unfold report Reports
  cases isInvalid c <;> rfl

theorem invalid?_close (m : Mode) (o : Nat) : (m.close o).filterMap invalid? = [] := by
  refine List.filterMap_eq_nil_iff.mpr fun e he => ?_
  obtain ⟨k, rfl⟩ := exists_of_mem_close he
  rfl

theorem invalid?_onTextEnd (m : Mode) (o : Nat) : (m.onTextEnd o).filterMap invalid? = [] := by
  obtain hend | ⟨-, hend⟩ := m.onTextEnd_cases <;> rw [hend]
  · exact invalid?_close m o
  · rw [List.filterMap_append, invalid?_close]
    rfl

theorem EndsLine.invalid? {o : Nat} {outcome : List Event × Option Run}
    (h : EndsLine o m outcome) : outcome.1.filterMap Event.invalid? = [] := by
  cases h with
  | continued | value => rfl
  | blank =>
    rw [List.filterMap_append, invalid?_close]
    rfl
  | closed => exact invalid?_close m o

theorem Takes.reports (h : Takes p c m es m') : Reports p c (es, m') := by
  cases h with
  | escaped r | part r => exact reports_report r
  | lineEnd _ _ hend => exact .quiet hend.invalid? (apply_nextLine isRun rfl c)
  | comment q =>
    refine .quiet ?_ rfl
    rw [List.filterMap_append, invalid?_close]
    rfl
  | opening hc =>
    subst hc
    rfl
  | _ => exact .quiet rfl rfl

/-- A character is reported if it may not stand in a run and a run goes on behind it. -/
theorem Reads.reports (h : Reads p c m es m') : Reports p c (es, m') := by
  induction h with
  | take h => exact h.reports
  | turn h _ ih => cases h <;> exact ih

/-- Behind a line end a scan is in no run. -/
theorem not_isTerminator_of_isRun {m : Mode} (h : (m.read p c).2.isRun = true) :
    isTerminator c = false := by
  cases hc : isTerminator c with
  | false => rfl
  | true =>
    obtain ⟨q, hmode⟩ := m.read_terminator p c hc
    rw [hmode, apply_nextLine isRun rfl] at h
    cases h

end Mode

theorem Event.invalid?_eq_some {e : Event} {x : InvalidCharacter} :
    e.invalid? = some x ↔ e = invalid x := by
  cases e <;> simp [invalid?]

/-- The reports on a text are those on its characters. -/
theorem Scanner.invalid?_scan_cons (s : Scanner) (c : Char) (t : Text) :
    (Step.results (s.scan (c :: t))).filterMap invalid? =
      (if isInvalid c && (s.next c).mode.isRun then [⟨c, s.place.offset, s.place.position⟩] else [])
        ++ (Step.results ((s.next c).scan t)).filterMap invalid? := by
  have hread : Mode.Reports s.place c (s.mode.read s.place c) :=
    (s.mode.reads_read s.place c).reports
  rw [results_scan_cons, List.filterMap_append, hread]
  rfl

theorem Scanner.invalid?_scan_nil (s : Scanner) :
    (Step.results (s.scan [])).filterMap invalid? = [] := by
  rw [results_scan_nil, List.filterMap_append, Mode.invalid?_onTextEnd]
  rfl

/-- A character is reported if it may not stand in a run and the characters up to it lead into
one. -/
theorem Scanner.mem_invalid?_scan_iff {s : Scanner} {t : Text} {x : InvalidCharacter} :
    x ∈ (Step.results (s.scan t)).filterMap invalid? ↔
      ∃ u c v, t = u ++ c :: v ∧ isInvalid c = true ∧ ((s.after u).next c).mode.isRun = true ∧
        x = ⟨c, (s.after u).place.offset, (s.after u).place.position⟩ := by
  induction t generalizing s with
  | nil =>
    rw [invalid?_scan_nil]
    exact iff_of_false List.not_mem_nil (by simp)
  | cons d t ih =>
    rw [invalid?_scan_cons, List.mem_append, ih]
    constructor
    · rintro (hx | ⟨u, c, v, rfl, hc⟩)
      · split_ifs at hx with hreports
        · obtain ⟨hinvalid, hrun⟩ := Bool.and_eq_true_iff.mp hreports
          exact ⟨[], d, t, rfl, hinvalid, hrun, List.mem_singleton.mp hx⟩
        · exact nomatch hx
      · exact ⟨d :: u, c, v, rfl, hc⟩
    · rintro ⟨u, c, v, ht, hinvalid, hrun, hx⟩
      cases u with
      | nil =>
        obtain ⟨rfl, rfl⟩ := List.cons.inj ht
        have hreports : (isInvalid d && (s.next d).mode.isRun) = true :=
          Bool.and_eq_true_iff.mpr ⟨hinvalid, hrun⟩
        rw [if_pos hreports]
        exact Or.inl (List.mem_singleton.mpr hx)
      | cons e u =>
        obtain ⟨rfl, rfl⟩ := List.cons.inj ht
        exact Or.inr ⟨u, c, v, rfl, hinvalid, hrun, hx⟩

theorem Event.invalid?_ofText (t : Text) : (ofText t).filterMap invalid? =
    (Step.results (Scanner.initial.scan t)).filterMap invalid? := rfl

/-- An invalid character is a character of the text, and ends no line. -/
theorem Event.exists_of_invalid {t : Text} {x : InvalidCharacter} (h : invalid x ∈ ofText t) :
    ∃ u v, t = u ++ x.character :: v ∧ x.offset = u.length ∧ isTerminator x.character = false := by
  have hreports : x ∈ (ofText t).filterMap invalid? := List.mem_filterMap.mpr ⟨_, h, rfl⟩
  rw [invalid?_ofText] at hreports
  obtain ⟨u, c, v, ht, -, hrun, rfl⟩ := Scanner.mem_invalid?_scan_iff.mp hreports
  exact ⟨u, v, ht, Scanner.offset_after_initial u, Mode.not_isTerminator_of_isRun hrun⟩

/-- The span of an invalid character lies between boundaries. -/
theorem Event.bounds_of_invalid {t : Text} {x : InvalidCharacter} (h : invalid x ∈ ofText t) :
    t.Bounds (.single x.offset) where
  ordered := Nat.le_succ x.offset
  start := isBoundary_offset h
  stop := by
    obtain ⟨u, v, rfl, hoffset, hc⟩ := exists_of_invalid h
    rw [Span.single, hoffset]
    exact Text.isBoundary_behind hc

end DotProperties
