import DotProperties.Proofs.Event.Resumption
import DotProperties.Proofs.Text.Lines

/-!
# A poll for each line

The physical lines of a text (`Text.physicalLines`) are what its terminators divide it into, each
with its terminator, behind a byte order mark. A scan polls once for each of them, before the
events of the line (`Event.scan_eq_lineSteps`) : whatever a line holds, it is read up to its
terminator and no further, so that the next character begins a line if and only if the last one
ended one (`Scanner.beginsLine_next`).

So the answers to the polls say how many lines are read (`Event.run_polledByLine`). The lines that
a scan polls for are those that a buffer counts, but for the last one if it is empty or nothing
but a byte order mark (`Text.exists_length_physicalLines`).
-/

namespace DotProperties

/-! ## Physical lines -/

namespace Text

/-- The byte order mark in front of a text, if there is one. -/
def mark (t : Text) : Text := if t.head? = some '\uFEFF' then ['\uFEFF'] else []

/-- The text behind its byte order mark. -/
def body (t : Text) : Text := if t.head? = some '\uFEFF' then t.tail else t

/-- The lines of a text, each with its terminator. There is no empty line behind the last
terminator. -/
def lines : Text → List Text
  | [] => []
  | c :: t =>
    if endsLine c t.head? then [c] :: lines t
    else
      match lines t with
      | [] => [[c]]
      | l :: ls => (c :: l) :: ls

/-- The lines of a text behind its byte order mark. -/
def physicalLines (t : Text) : List Text := t.body.lines

/-- There is text behind the last terminator. -/
def unterminated (t : Text) : Bool := t.getLast?.any fun c => !isTerminator c

theorem mark_append_body (t : Text) : t.mark ++ t.body = t := by
  unfold mark body
  split_ifs with h
  · obtain ⟨t, rfl⟩ := List.head?_eq_some_iff.mp h
    rfl
  · rfl

theorem mark_cons {c : Char} (h : c ≠ '\uFEFF') (t : Text) : mark (c :: t) = [] := by
  simp [mark, h]

theorem body_cons {c : Char} (h : c ≠ '\uFEFF') (t : Text) : body (c :: t) = c :: t := by
  simp [body, h]

theorem endsLine_none (c : Char) : endsLine c none = isTerminator c := by
  rw [endsLine, isTerminator, show (none != some '\n') = true from rfl, Bool.and_true]

/-- A character that does not end its line stands in front of the line of the next one. -/
theorem exists_lines_cons (c : Char) (t : Text) : ∃ l ls, lines (c :: t) = (c :: l) :: ls ∧
    ((endsLine c t.head? = true ∨ t = []) ∧ l = [] ∧ ls = t.lines ∨
      endsLine c t.head? = false ∧ t.lines = l :: ls) := by
  induction t generalizing c with
  | nil =>
    refine ⟨[], [], ?_, Or.inl ⟨Or.inr rfl, rfl, rfl⟩⟩
    unfold lines
    split_ifs <;> rfl
  | cons d t ih =>
    by_cases h : endsLine c (some d) = true
    · exact ⟨[], lines (d :: t), if_pos h, Or.inl ⟨Or.inl h, rfl, rfl⟩⟩
    · obtain ⟨l, ls, hlines, -⟩ := ih d
      refine ⟨d :: l, ls, ?_, Or.inr ⟨Bool.eq_false_iff.mpr h, hlines⟩⟩
      rw [lines, hlines]
      exact if_neg h

theorem flatten_lines (t : Text) : t.lines.flatten = t := by
  induction t with
  | nil => rfl
  | cons c t ih =>
    obtain ⟨l, ls, hlines, ⟨-, rfl, rfl⟩ | ⟨-, hrest⟩⟩ := exists_lines_cons c t
    · rw [hlines, List.flatten_cons, ih, List.singleton_append]
    · rw [hlines, List.flatten_cons, List.cons_append, ← List.flatten_cons, ← hrest, ih]

theorem unterminated_cons_cons (c d : Char) (t : Text) :
    unterminated (c :: d :: t) = unterminated (d :: t) := by
  simp [unterminated]

/-- A text has as many lines as terminators, and one more if text follows the last one. -/
theorem length_lines (t : Text) :
    t.lines.length = t.breaks + if t.unterminated then 1 else 0 := by
  induction t with
  | nil => rfl
  | cons c t ih =>
    obtain ⟨l, ls, hlines, hcases⟩ := exists_lines_cons c t
    rw [hlines, breaks, List.length_cons]
    cases t with
    | nil =>
      obtain ⟨-, -, rfl⟩ | ⟨-, hrest⟩ := hcases
      · cases hc : isTerminator c <;> simp [endsLine_none, breaks, unterminated, lines, hc]
      · cases hrest
    | cons d t =>
      rw [unterminated_cons_cons]
      obtain ⟨hends | hnil, -, rfl⟩ | ⟨hends, hrest⟩ := hcases
      · rw [ih, hends, if_pos rfl]
        omega
      · cases hnil
      · rw [← List.length_cons (a := l), ← hrest, ih, hends, if_neg Bool.false_ne_true,
          Nat.add_zero]

theorem length_physicalLines (t : Text) :
    t.physicalLines.length = t.body.breaks + if t.body.unterminated then 1 else 0 :=
  length_lines t.body

theorem breaks_body (t : Text) : t.body.breaks = t.breaks := by
  unfold body
  split_ifs with h
  · obtain ⟨t, rfl⟩ := List.head?_eq_some_iff.mp h
    rw [List.tail_cons, breaks]
    rfl
  · rfl

theorem unterminated_body {t : Text} (h : t ≠ ['\uFEFF']) :
    t.body.unterminated = t.unterminated := by
  unfold body
  split_ifs with hhead
  · obtain ⟨_ | ⟨d, t⟩, rfl⟩ := List.head?_eq_some_iff.mp hhead
    · exact absurd rfl h
    · exact (unterminated_cons_cons _ d t).symm
  · rfl

/-- The last line of a text is empty if and only if no text follows the last terminator. -/
theorem exists_lastLine (b : Nat) (t : Text) : ∃ start last,
    lineFrom? b t t.breaks = some (start, last) ∧ (last = [] ↔ t.unterminated = false) := by
  induction t generalizing b with
  | nil => exact ⟨b, [], rfl, by simp [unterminated]⟩
  | cons c t ih =>
    obtain ⟨start, last, hfrom, hlast⟩ := ih (b + 1)
    have hterminated (hne : t ≠ []) : unterminated (c :: t) = unterminated t := by
      obtain ⟨d, t, rfl⟩ := List.exists_cons_of_ne_nil hne
      exact unterminated_cons_cons c d t
    by_cases hends : endsLine c t.head? = true
    · refine ⟨start, last, ?_, hlast.trans ?_⟩
      · rw [breaks, if_pos hends, lineFrom?, if_pos hends, hfrom]
      · rcases eq_or_ne t [] with rfl | hne
        · rw [List.head?_nil, endsLine_none] at hends
          simp [unterminated, hends]
        · rw [hterminated hne]
    · rw [breaks, if_neg hends, Nat.add_zero]
      rcases hbreaks : breaks t with _ | n
      · -- The text is one line without a terminator.
        rw [hbreaks, lineFrom?_zero] at hfrom
        obtain ⟨rfl, rfl⟩ := Prod.mk.inj (Option.some.inj hfrom)
        refine ⟨b, c :: t, rfl, iff_of_false (List.cons_ne_nil c t) ?_⟩
        rcases eq_or_ne t [] with rfl | hne
        · rw [List.head?_nil, endsLine_none] at hends
          simpa [unterminated] using hends
        · rw [hterminated hne]
          exact mt hlast.mpr hne
      · refine ⟨start, last, ?_, hlast.trans ?_⟩
        · rw [lineFrom?, if_neg hends, ← hbreaks, hfrom]
        · rw [hterminated (by rintro rfl; cases hbreaks)]

/-- A scan polls for the lines that a buffer counts, but for the last one if it is empty, or a byte
order mark and nothing else. -/
theorem exists_length_physicalLines (t : Text) : ∃ start last,
    lineFrom? 0 t (t.lineCount - 1) = some (start, last) ∧
      t.physicalLines.length =
        if t = ['\uFEFF'] then 0 else if last = [] then t.lineCount - 1 else t.lineCount := by
  obtain ⟨start, last, hfrom, hlast⟩ := exists_lastLine 0 t
  refine ⟨start, last, hfrom, ?_⟩
  rcases eq_or_ne t ['\uFEFF'] with rfl | hne
  · rfl
  · rw [if_neg hne, length_physicalLines, breaks_body, unterminated_body hne, lineCount]
    cases hopen : t.unterminated with
    | true => simp [hlast, hopen]
    | false => simp [hlast, hopen]

end Text

/-! ## Where lines begin -/

namespace Mode

variable {m : Mode} (p : Place) (c : Char)

theorem not_beginsLine_of_withinLine (h : m.withinLine = true) : m.beginsLine c = false := by
  cases m <;> first | rfl | exact nomatch h

theorem not_isByteOrderMark_of_withinLine (h : m.withinLine = true) :
    m.isByteOrderMark c = false := by
  cases m <;> first | rfl | exact nomatch h

/-- What the mode after a character can be : at the start of a line behind a terminator or a byte
order mark, and within a line behind every other character. -/
theorem read_cases (m : Mode) :
    c = '\n' ∧ (∃ pending, (m.read p c).2 = lineStart pending) ∨
    c = '\r' ∧ (∃ pending, (m.read p c).2 = afterReturn pending) ∨
    m.isByteOrderMark c = true ∧ (m.read p c).2 = lineStart none ∨
    isTerminator c = false ∧ (m.read p c).2.withinLine = true := by
  cases hc : isTerminator c with
  | true =>
    have hmode := m.read_terminator p c hc
    rcases Text.isTerminator_iff.mp hc with rfl | rfl
    · exact Or.inl ⟨rfl, hmode⟩
    · exact Or.inr (Or.inl ⟨rfl, hmode⟩)
  | false =>
    refine Or.inr (Or.inr ?_)
    cases h : m.isByteOrderMark c with
    | true =>
      obtain ⟨rfl, rfl⟩ : m = start ∧ c = '\uFEFF' := by simpa [isByteOrderMark] using h
      exact Or.inl ⟨rfl, rfl⟩
    | false => exact Or.inr ⟨rfl, withinLine_read p c hc h⟩

end Mode

namespace Scanner

variable {s : Scanner} {c : Char}

/-- Behind a character the next one begins a line if and only if the character ended one. -/
theorem beginsLine_next (h : s.mode.isByteOrderMark c = false) (d : Char) :
    (s.next c).mode.beginsLine d = Text.endsLine c (some d) := by
  obtain ⟨rfl, pending, hmode⟩ | ⟨rfl, pending, hmode⟩ | ⟨hmark, -⟩ | ⟨hc, hmode⟩ :=
    Mode.read_cases s.place c s.mode
  · rw [next, hmode]
    rfl
  · rw [next, hmode]
    simp [Mode.beginsLine, Text.endsLine, bne]
  · rw [h] at hmark
    cases hmark
  · rw [next, Mode.not_beginsLine_of_withinLine d hmode, Text.endsLine_of_not_terminator hc]

/-- A byte order mark is the first character of a text only. -/
theorem not_isByteOrderMark_next (s : Scanner) (c d : Char) :
    (s.next c).mode.isByteOrderMark d = false := by
  obtain ⟨-, pending, hmode⟩ | ⟨-, pending, hmode⟩ | ⟨-, hmode⟩ | ⟨-, hmode⟩ :=
    Mode.read_cases s.place c s.mode
  · rw [next, hmode]
    rfl
  · rw [next, hmode]
    rfl
  · rw [next, hmode]
    rfl
  · exact Mode.not_isByteOrderMark_of_withinLine d hmode

/-! ## The steps of a line -/

/-- The steps that lines give, at the start of the first one : for each line a poll, and then its
events. -/
def lineSteps (s : Scanner) : List Text → List (Step Event)
  | [] => s.finish
  | l :: ls => .poll :: ((s.events l).map .yield ++ (s.after l).lineSteps ls)

theorem polls_lineSteps (s : Scanner) (ls : List Text) :
    Step.polls (s.lineSteps ls) = ls.length := by
  induction ls generalizing s with
  | nil => exact Step.polls_map_yield _
  | cons l ls ih =>
    rw [lineSteps, Step.polls_poll_cons, Step.polls_append, Step.polls_map_yield, ih, Nat.zero_add,
      List.length_cons]

/-- What lines give before the poll of one of them is what the lines before it give. -/
theorem before_lineSteps {k : Nat} {ls : List Text} (h : k < ls.length) (s : Scanner) :
    Step.before k (s.lineSteps ls) = s.events (ls.take k).flatten := by
  induction ls generalizing s k with
  | nil => exact absurd h (Nat.not_lt_zero k)
  | cons l ls ih =>
    cases k with
    | zero => rfl
    | succ k =>
      rw [lineSteps, Step.before_succ_poll_cons, Step.before_map_yield_append,
        ih (Nat.lt_of_succ_lt_succ h), List.take_succ_cons, List.flatten_cons, events_append]

/-- A scan in front of a line gives the steps of the lines, and one within a line gives all of
them but the poll. -/
theorem scan_cons_eq (h : s.mode.isByteOrderMark c = false) (t : Text) :
    s.scan (c :: t) =
      if s.mode.beginsLine c then s.lineSteps (Text.lines (c :: t))
      else (s.lineSteps (Text.lines (c :: t))).tail := by
  induction t generalizing s c with
  | nil =>
    obtain ⟨l, ls, hlines, ⟨-, rfl, rfl⟩ | ⟨-, hrest⟩⟩ := Text.exists_lines_cons c []
    · rw [hlines, scan, steps]
      split_ifs <;> simp [scan, lineSteps, events, Text.lines]
    · cases hrest
  | cons d t ih =>
    -- What is read behind `c` is the rest of its line, or the lines behind it.
    have hbegins : (s.next c).mode.beginsLine d = Text.endsLine c (d :: t).head? :=
      beginsLine_next h d
    have hrest := ih (s.not_isByteOrderMark_next c d)
    obtain ⟨l, ls, hlines, hcases⟩ := Text.exists_lines_cons c (d :: t)
    have hscan : (s.next c).scan (d :: t) =
        ((s.next c).events l).map .yield ++ ((s.next c).after l).lineSteps ls := by
      obtain ⟨hends | hnil, rfl, rfl⟩ | ⟨hends, hline⟩ := hcases
      · rw [hrest, hbegins, if_pos hends]
        rfl
      · cases hnil
      · rw [hrest, hbegins, if_neg (Bool.not_eq_true _ ▸ hends), hline]
        rfl
    rw [scan, hscan, hlines, steps]
    split_ifs <;> simp [lineSteps, events]

end Scanner

namespace Event

/-- A scan polls once for each physical line, before the events of the line. -/
theorem scan_eq_lineSteps (t : Text) :
    scan t = .yield (.start .document 0) ::
      (Scanner.initial.after t.mark).lineSteps t.physicalLines := by
  unfold scan
  congr 1
  rcases t with _ | ⟨c, t⟩
  · rfl
  · rcases eq_or_ne c '\uFEFF' with rfl | hne
    · rcases t with _ | ⟨d, t⟩
      · rfl
      · have hmark := Scanner.initial.not_isByteOrderMark_next '\uFEFF' d
        exact Scanner.scan_cons_eq hmark t
    · have hmark : Scanner.initial.mode.isByteOrderMark c = false := by
        simp [Mode.isByteOrderMark, hne]
      have hbegins : Scanner.initial.mode.beginsLine c = true := by
        simp [Scanner.initial, Mode.beginsLine, hne]
      rw [Scanner.scan_cons_eq hmark, if_pos hbegins, Text.mark_cons hne, Text.physicalLines,
        Text.body_cons hne]
      rfl

theorem polls_scan (t : Text) : Step.polls (scan t) = t.physicalLines.length := by
  rw [scan_eq_lineSteps, Step.polls_yield_cons, Scanner.polls_lineSteps]

/-- The events of the first `k` physical lines of a text. -/
def ofLines (t : Text) (k : Nat) : List Event :=
  .start .document 0 :: Scanner.initial.events (t.mark ++ (t.physicalLines.take k).flatten)

theorem before_scan {t : Text} {k : Nat} (h : k < t.physicalLines.length) :
    Step.before k (scan t) = ofLines t k := by
  have hmark : Scanner.initial.events t.mark = [] := by
    unfold Text.mark
    split_ifs
    · rfl
    · rfl
  rw [scan_eq_lineSteps, Step.before_yield_cons, Scanner.before_lineSteps h, ofLines,
    Scanner.events_append, hmark, List.nil_append]

/-- How the run of a scan ends under a row of answers. -/
structure PolledByLine (t : Text) (answers : Nat → Bool) (o : Outcome Nat Event) : Prop where
  /-- It is cancelled if one of the answers to its lines is `true`. -/
  cancelled_iff : o.cancelled = true ↔ ∃ k < t.physicalLines.length, answers k = true
  /-- The first such answer is the last one, and the events are those of the lines before it. -/
  stopped : ∀ k < t.physicalLines.length, answers k = true → (∀ j < k, answers j = false) →
    o.state = k + 1 ∧ o.results = ofLines t k ∧ o.results <+: ofText t
  /-- Without such an answer there is one for each line, and the events are those of the text. -/
  completed : (∀ k < t.physicalLines.length, answers k = false) →
    o.state = t.physicalLines.length ∧ o.results = ofText t

theorem polledByLine_answering (t : Text) (answers : Nat → Bool) :
    PolledByLine t answers (Step.run (.answering answers) 0 (scan t)) where
  cancelled_iff := by
    rw [← polls_scan]
    exact Step.cancelled_run_iff
  stopped k hk h hfirst := by
    rw [Step.run_of_first (by rwa [polls_scan]) h hfirst]
    exact ⟨rfl, before_scan hk, Step.before_prefix k (scan t)⟩
  completed h := by
    rw [← polls_scan] at h ⊢
    rw [Step.run_of_all_pass h]
    exact ⟨rfl, rfl⟩

/-- A scan polls once for each physical line, before the events of the line :

* the physical lines are the text without a byte order mark in front, as many as it has terminators
  and one more if text follows the last one;
* under every row of answers the first one that is `true` ends the run, and the events are those of
  the lines before;
* a checker with a state of its own counts for no more than its answers, and its state tells how
  many of them were asked for;
* a buffer counts one line more if the last one is empty, and if the text is a byte order mark. -/
theorem run_polledByLine (t : Text) :
    scan t = .yield (.start .document 0) ::
      (Scanner.initial.after t.mark).lineSteps t.physicalLines ∧
    t.mark ++ t.physicalLines.flatten = t ∧
    t.physicalLines.length = t.body.breaks + (if t.body.unterminated then 1 else 0) ∧
    (∀ answers, PolledByLine t answers (Step.run (.answering answers) 0 (scan t))) ∧
    (∀ (σ : Type) (check : Checker σ) (s : σ), Step.run check s (scan t) =
      (Step.run (.answering (check.answer s)) 0 (scan t)).mapState (check.state s)) ∧
    ∃ start last, t.lineFrom? 0 (t.lineCount - 1) = some (start, last) ∧
      t.physicalLines.length =
        if t = ['\uFEFF'] then 0 else if last = [] then t.lineCount - 1 else t.lineCount := by
  refine ⟨scan_eq_lineSteps t, ?_, t.length_physicalLines, polledByLine_answering t,
    ?_, t.exists_length_physicalLines⟩
  · rw [Text.physicalLines, Text.flatten_lines, Text.mark_append_body]
  · exact fun σ check s => Step.run_eq_answering check s (scan t)

end Event

end DotProperties
