import DotProperties.Proofs.Event.Grammar

/-!
# Line locality

What a scan does with a character depends on its mode alone. The place only says where the
events stand : read from another place, a text gives the same events, moved (`Event.relocate`,
`Mode.read_relocate`).

At the start of a line with nothing left open, the mode is as good as at the start of the text,
but for a byte order mark and for a line feed that would still belong to the terminator before
it. So the events of a text that ends there, followed by those of another text, moved, are the
events of the two in a row (`Event.ofText_append`).
-/

namespace DotProperties

/-! ## Texts in a row -/

namespace Scanner

/-- After reading a text. -/
def after (s : Scanner) (t : Text) : Scanner := t.foldl next s

/-- The events of reading a text that goes on. -/
def events (s : Scanner) : Text → List Event
  | [] => []
  | c :: t => (s.mode.read s.place c).1 ++ (s.next c).events t

variable (s : Scanner) (c : Char) (t u : Text)

@[simp] theorem after_nil : s.after [] = s := rfl

@[simp] theorem after_cons : s.after (c :: t) = (s.next c).after t := rfl

theorem after_append : s.after (t ++ u) = (s.after t).after u := List.foldl_append

theorem after_offset : (s.after t).place.offset = s.place.offset + t.length := by
  induction t generalizing s with
  | nil => rfl
  | cons c t ih =>
    rw [after_cons, ih, next_offset, List.length_cons]
    omega

theorem offset_after_initial : (initial.after t).place.offset = t.length :=
  (after_offset initial t).trans (Nat.zero_add _)

theorem events_append : s.events (t ++ u) = s.events t ++ (s.after t).events u := by
  induction t generalizing s with
  | nil => rfl
  | cons c t ih => rw [List.cons_append, events, ih, events, after_cons, List.append_assoc]

/-- A scan reports what a first part of the text gives, and goes on behind it. -/
theorem results_scan_append :
    Step.results (s.scan (t ++ u)) = s.events t ++ Step.results ((s.after t).scan u) := by
  induction t generalizing s with
  | nil => rfl
  | cons c t ih =>
    rw [List.cons_append, results_scan_cons, ih, events, List.append_assoc, after_cons]

end Scanner

theorem Event.ofText_eq (t : Text) :
    ofText t = start .document 0 :: Step.results (Scanner.initial.scan t) := rfl

/-! ## Moved events -/

/-- The event with its offset and position moved. -/
def Event.relocate (f : Nat → Nat) (g : Position → Position) : Event → Event
  | start c o => start c (f o)
  | stop c o => stop c (f o)
  | assign o => assign (f o)
  | blankLine o => blankLine (f o)
  | invalid e => invalid ⟨e.character, f e.offset, g e.position⟩

open Event

/-- The place `p` is moved to `p'`, and the one behind it accordingly. -/
structure Place.Moves (f : Nat → Nat) (g : Position → Position) (p p' : Place) : Prop where
  offset : f p.offset = p'.offset
  behind : f (p.offset + 1) = p'.offset + 1
  position : g p.position = p'.position

section Relocate

variable {f : Nat → Nat} {g : Position → Position} {p p' : Place} (h : p.Moves f g p')

include h

theorem report_relocate (c : Char) : report p' c = (report p c).map (relocate f g) := by
  unfold report
  split
  · simp [relocate, h.offset, h.position]
  · rfl

namespace Mode

omit h in
theorem close_relocate (m : Mode) (o : Nat) :
    (m.close o).map (relocate f g) = m.close (f o) :=
  List.map_map

variable {m m' : Mode} {c : Char} {es : List Event}

theorem EndsLine.relocate {outcome : List Event × Option Run}
    (hm : EndsLine p.offset m outcome) :
    EndsLine p'.offset m (outcome.1.map (relocate f g), outcome.2) := by
  rw [← h.offset]
  cases hm with
  | continued r => exact .continued r
  | value =>
    rw [List.map_cons, close_relocate]
    exact .value
  | blank hblank =>
    rw [List.map_append, close_relocate]
    exact .blank hblank
  | closed hblank hassign hescape =>
    rw [close_relocate]
    exact .closed hblank hassign hescape

theorem Turns.relocate (hm : Turns p c m es m') :
    Turns p' c m (es.map (relocate f g)) m' := by
  cases hm <;> simp only [List.map_cons, List.map_nil, Event.relocate, h.offset]
  case start hc => exact .start hc
  case lineStart q => exact .lineStart q
  case afterReturn q hc => exact .afterReturn q hc
  case resume r hc => exact .resume r hc
  case property hc => exact .property hc
  case key hc => exact .key hc
  case skip hspacing hassign => exact .skip hspacing hassign
  case value hc => exact .value hc
  case literal hc hdollar => exact .literal hc hdollar
  case dollar hc => exact .dollar hc

theorem Takes.relocate (hm : Takes p c m es m') :
    Takes p' c m (es.map (relocate f g)) m' := by
  cases hm with
  | feed q hc => exact .feed q hc
  | lineEnd hc hcompletes hend => exact .lineEnd hc hcompletes (hend.relocate h)
  | mark hc => exact .mark hc
  | indent q hc => exact .indent q hc
  | comment q hc =>
    simp only [List.map_append, close_relocate, List.map_cons, List.map_nil, Event.relocate,
      h.offset]
    exact .comment q hc
  | backslash r hc => exact .backslash r hc
  | escaped r hc => exact report_relocate h c ▸ .escaped r hc
  | part r hbackslash hc hstops => exact report_relocate h c ▸ .part r hbackslash hc hstops
  | literal hc =>
    simp only [List.map_cons, List.map_nil, Event.relocate, h.offset]
    exact .literal hc
  | dollar hc =>
    simp only [List.map_cons, List.map_nil, Event.relocate, h.offset]
    exact .dollar hc
  | opening hc => exact .opening hc
  | closing hc =>
    simp only [List.map_cons, List.map_nil, Event.relocate, h.behind]
    exact .closing hc
  | assign hc =>
    simp only [List.map_cons, List.map_nil, Event.relocate, h.offset]
    exact .assign hc
  | beforeAssign hc => exact .beforeAssign hc
  | behindAssign hc => exact .behindAssign hc
  | skipped hc => exact .skipped hc
  | inComment hc => exact .inComment hc

/-- Read from a place that is moved, a character gives events that are moved, and leads to the
same mode. -/
theorem Reads.relocate (hm : Reads p c m es m') :
    Reads p' c m (es.map (relocate f g)) m' := by
  induction hm with
  | take hm => exact .take (hm.relocate h)
  | turn hm _ ih =>
    rw [List.map_append]
    exact .turn (hm.relocate h) ih

theorem onLineEnd_relocate (m : Mode) :
    m.onLineEnd p'.offset =
      ((m.onLineEnd p.offset).1.map (relocate f g), (m.onLineEnd p.offset).2) :=
  ((m.endsLine_onLineEnd p.offset).relocate h).eq

theorem onTextEnd_relocate (m : Mode) :
    m.onTextEnd p'.offset = (m.onTextEnd p.offset).map (relocate f g) := by
  obtain hend | ⟨-, hend⟩ := m.onTextEnd_cases <;> rw [hend, hend, ← h.offset]
  · rw [close_relocate]
  · rw [List.map_append, close_relocate]
    rfl

theorem read_relocate (m : Mode) (c : Char) :
    m.read p' c = ((m.read p c).1.map (relocate f g), (m.read p c).2) :=
  ((m.reads_read p c).relocate h).read_eq

end Mode

end Relocate

/-! ## Moved texts -/

/-- The event `n` characters and `l` lines further on. -/
def Event.shift (n l : Nat) : Event → Event :=
  relocate (· + n) fun q => ⟨q.line + l, q.character⟩

/-- The place `n` characters and `l` lines further on. -/
def Place.shift (n l : Nat) (p : Place) : Place :=
  ⟨p.offset + n, p.position.line + l, p.position.character⟩

theorem Place.moves_shift (n l : Nat) (p : Place) :
    p.Moves (· + n) (fun q => ⟨q.line + l, q.character⟩) (p.shift n l) where
  offset := rfl
  behind := Nat.add_right_comm p.offset 1 n
  position := rfl

theorem Place.shift_after (n l : Nat) (p : Place) (m : Mode) (c : Char) :
    (p.shift n l).after m c = (p.after m c).shift n l := by
  unfold Place.after
  split_ifs <;> simp [Place.shift, Nat.add_right_comm]

/-- A text that is read further on gives the same events further on. -/
theorem Scanner.results_scan_shift (n l : Nat) (t : Text) (m : Mode) (p : Place) :
    Step.results (Scanner.scan ⟨m, p.shift n l⟩ t) =
      (Step.results (Scanner.scan ⟨m, p⟩ t)).map (shift n l) := by
  induction t generalizing m p with
  | nil =>
    rw [results_scan_nil, results_scan_nil, List.map_append]
    exact congrArg (· ++ _) (Mode.onTextEnd_relocate (p.moves_shift n l) m)
  | cons c t ih =>
    rw [results_scan_cons, results_scan_cons, List.map_append]
    have hread := Mode.read_relocate (p.moves_shift n l) m c
    have hnext : Scanner.next ⟨m, p.shift n l⟩ c = ⟨(m.read p c).2, (p.after m c).shift n l⟩ := by
      rw [Scanner.next, hread, Place.shift_after]
    rw [hnext, ih, hread]
    rfl

/-! ## Lines -/

namespace Mode

/-- Something of a line was read. -/
def withinLine : Mode → Bool
  | start | lineStart _ | afterReturn _ => false
  | _ => true

variable (p : Place) (c c' : Char)

/-- A character that ends no line is part of one, unless it is a byte order mark. -/
theorem withinLine_read {m : Mode} (hc : isTerminator c = false)
    (h : m.isByteOrderMark c = false) : (m.read p c).2.withinLine = true := by
  have hreads := m.reads_read p c
  generalize (m.read p c).1 = es, (m.read p c).2 = m' at hreads ⊢
  induction hreads with
  | take htakes =>
    cases htakes with
    | feed q hfeed => cases hfeed ▸ hc
    | lineEnd hterminator => exact Bool.noConfusion (hc.symm.trans hterminator)
    | mark hmark => simp [isByteOrderMark, hmark] at h
    | _ => rfl
  | turn hturns _ ih => exact ih (by cases hturns <;> rfl)

/-- Only behind a carriage return a line feed still belongs to the terminator. -/
theorem not_completes_read (m : Mode) (hc : isTerminator c = false) :
    (m.read p c).2.completesTerminator c' = false := by
  cases h : m.isByteOrderMark c with
  | true =>
    obtain ⟨rfl, rfl⟩ : m = start ∧ c = '\uFEFF' := by simpa [isByteOrderMark] using h
    rfl
  | false =>
    have hwithin := withinLine_read p c hc h
    generalize (m.read p c).2 = m' at hwithin ⊢
    cases m' <;> first | rfl | exact nomatch hwithin

theorem not_completes_return (m : Mode) : m.completesTerminator '\r' = false := by cases m <;> rfl

/-- Behind a terminator a line starts. -/
theorem read_terminator (m : Mode) (h : isTerminator c = true) :
    ∃ q, (m.read p c).2 = nextLine c q := by
  cases hm : m.completesTerminator c with
  | true =>
    obtain rfl := eq_feed_of_completes hm
    exact ⟨m.pending, by rw [read, hm]; rfl⟩
  | false => exact ⟨(m.onLineEnd p.offset).2, by rw [read_of_terminator hm h]⟩

end Mode

/-- The line feed in front of `t`, if there is one, belongs to a terminator that was counted. -/
def Mode.overlap (m : Mode) (t : Text) : Nat :=
  if t.head?.any m.completesTerminator then 1 else 0

@[simp] theorem Mode.overlap_cons (m : Mode) (c : Char) (t : Text) :
    m.overlap (c :: t) = if m.completesTerminator c then 1 else 0 := rfl

theorem Mode.overlap_lineStart (pending : Option Run) (t : Text) :
    (lineStart pending).overlap t = 0 := by
  cases t <;> rfl

theorem Mode.overlap_afterReturn (pending : Option Run) (t : Text) :
    (afterReturn pending).overlap t = if t.head? = some '\n' then 1 else 0 := by
  cases t with
  | nil => rfl
  | cons c t => simp [completesTerminator]

theorem Mode.overlap_onCharacter (m : Mode) (p : Place) {c : Char} (hc : isTerminator c = false)
    (t : Text) : (m.onCharacter p c).2.overlap t = 0 := by
  rw [← read_of_not_terminator hc]
  cases t with
  | nil => rfl
  | cons c' t => rw [overlap_cons, not_completes_read p c c' m hc, if_neg Bool.false_ne_true]

/-- One character counts as a line if it is the last one of its line, or the first one of a
terminator of two characters. -/
theorem Scanner.next_line (s : Scanner) (c : Char) (t : Text) :
    (s.next c).place.position.line + s.mode.overlap (c :: t) =
      s.place.position.line + (if Text.endsLine c t.head? then 1 else 0) +
        (s.next c).mode.overlap t := by
  obtain ⟨m, p⟩ := s
  rw [Mode.overlap_cons]
  simp only [next, Place.after, Mode.read]
  by_cases hc : m.completesTerminator c
  · obtain rfl := Mode.eq_feed_of_completes hc
    simp [hc, Mode.overlap_lineStart, Text.endsLine]
  · by_cases hn : c = '\n'
    · subst hn
      simp [hc, Mode.isByteOrderMark, Mode.overlap_lineStart, isTerminator, Text.endsLine]
    by_cases hr : c = '\r'
    · subst hr
      by_cases hnext : t.head? = some '\n' <;>
        simp [hc, hnext, Mode.isByteOrderMark, Mode.overlap_afterReturn, isTerminator,
          Text.endsLine]
    · have hline : isTerminator c = false := by simp [isTerminator, hn, hr]
      have hends : Text.endsLine c t.head? = false := by simp [Text.endsLine, hn, hr]
      simp only [hc, hline, hends, Bool.false_or]
      by_cases hbom : m.isByteOrderMark c <;> simp [hbom, m.overlap_onCharacter p hline]

/-- The lines that a scan counts are the line ends of the text. -/
theorem Scanner.after_line (s : Scanner) (t : Text) :
    (s.after t).place.position.line + s.mode.overlap t = s.place.position.line + t.breaks := by
  induction t generalizing s with
  | nil => rfl
  | cons c t ih =>
    have hrest := ih (s.next c)
    have hnext := s.next_line c t
    rw [after_cons, Text.breaks]
    omega

/-! ## A text behind another -/

/-- Behind a line that leaves nothing open, a character is read as the first one of a text,
unless it is a byte order mark or completes the terminator of the line. -/
theorem Mode.read_fresh {m : Mode} {c : Char} (hm : m = lineStart none ∨ m = afterReturn none)
    (hc : m.completesTerminator c = false) (hmark : c ≠ '\uFEFF') (p : Place) :
    m.read p c = start.read p c ∧ p.after m c = p.after start c := by
  have hstart : start.completesTerminator c = false := rfl
  have hbom : ∀ m' : Mode, m'.isByteOrderMark c = false := by simp [isByteOrderMark, hmark]
  refine ⟨?_, by simp only [Place.after, hc, hstart, hbom]⟩
  rw [(Turns.start hmark).read_eq]
  rcases hm with rfl | rfl
  · exact (Turns.lineStart none).read_eq
  · exact (Turns.afterReturn none (ne_of_beq_false hc)).read_eq

/-- Behind a line that leaves nothing open, a text is read as if it stood alone. -/
theorem Scanner.results_scan_fresh {m : Mode} {u : Text}
    (hm : m = .lineStart none ∨ m = .afterReturn none)
    (hu : ∀ c ∈ u.head?, m.completesTerminator c = false ∧ c ≠ '\uFEFF') (p : Place) :
    Step.results (Scanner.scan ⟨m, p⟩ u) = Step.results (Scanner.scan ⟨.start, p⟩ u) := by
  cases u with
  | nil =>
    rw [results_scan_nil, results_scan_nil]
    rcases hm with rfl | rfl <;> rfl
  | cons c u =>
    obtain ⟨hc, hmark⟩ := hu c rfl
    obtain ⟨hread, hafter⟩ := Mode.read_fresh hm hc hmark p
    rw [results_scan_cons, results_scan_cons, next, next, hread, hafter]

/-- Where a text ends whose last line has a terminator. -/
theorem Scanner.after_terminated {t : Text} (h : ∃ c ∈ t.getLast?, isTerminator c = true) :
    (initial.after t).place = initial.place.shift t.length t.breaks ∧
      ∃ pending, (initial.after t).mode = .lineStart pending ∨
        t.getLast? = some '\r' ∧ (initial.after t).mode = .afterReturn pending := by
  have hoffset := initial.after_offset t
  have hline := initial.after_line t
  have hnone : initial.mode.overlap t = 0 := by
    cases t <;> rfl
  obtain ⟨c, hlast, hc⟩ := h
  obtain ⟨t', ht⟩ := List.getLast?_eq_some_iff.mp hlast
  have hnext : initial.after t = (initial.after t').next c := by
    rw [ht, after_append]
    rfl
  have hcolumn : (initial.after t).place.position.character = 0 := by
    rw [hnext]
    simp only [next, Place.after, hc]
    split_ifs <;> rfl
  refine ⟨?_, ?_⟩
  · generalize initial.after t = s at hoffset hline hcolumn ⊢
    obtain ⟨m, o, l, n⟩ := s
    simp only [hnone, Nat.add_zero] at hoffset hline hcolumn
    subst hoffset hline hcolumn
    simp [Place.shift, initial]
  · obtain ⟨pending, hmode⟩ := Mode.read_terminator (initial.after t').place c _ hc
    have hline : (initial.after t).mode = .nextLine c pending := by rw [hnext, next, hmode]
    rw [hline, hlast]
    rcases Text.isTerminator_iff.mp hc with rfl | rfl
    · exact ⟨pending, Or.inl rfl⟩
    · exact ⟨pending, Or.inr ⟨rfl, rfl⟩⟩

namespace Event

/-- The events of a text whose last line has a terminator and leaves nothing open, and of
another text behind it that neither completes the terminator nor starts with a byte order mark :
the events of the first text, without the end of the document, and then those of the second one,
without the start of the document, as many characters and lines further on as the first one
has. -/
theorem ofText_append {t u : Text} (hend : ∃ c ∈ t.getLast?, isTerminator c = true)
    (hsplit : ¬(t.getLast? = some '\r' ∧ u.head? = some '\n'))
    (hmark : u.head? ≠ some '\uFEFF')
    (hclosed : (Scanner.initial.after t).mode.pending = none) :
    ∃ es es', ofText t = es ++ [stop .document t.length] ∧
      ofText u = start .document 0 :: es' ∧
      ofText (t ++ u) = es ++ es'.map (shift t.length t.breaks) := by
  obtain ⟨hplace, pending, hmode⟩ := Scanner.after_terminated hend
  obtain rfl : pending = none := by
    rcases hmode with hmode | ⟨-, hmode⟩ <;> rwa [hmode] at hclosed
  have hfirst := Scanner.initial.results_scan_append t
  generalize Scanner.initial.after t = s at hplace hmode hfirst
  obtain ⟨m, p⟩ := s
  dsimp only at hplace hmode
  refine ⟨start .document 0 :: Scanner.initial.events t, _, ?_, rfl, ?_⟩
  · have htextEnd : m.onTextEnd p.offset = [] := by
      rcases hmode with rfl | ⟨-, rfl⟩ <;> rfl
    have h := hfirst []
    rw [List.append_nil, Scanner.results_scan_nil, htextEnd, hplace] at h
    rw [ofText_eq, h]
    simp [Place.shift, Scanner.initial]
  · have hu : ∀ c ∈ u.head?, m.completesTerminator c = false ∧ c ≠ '\uFEFF' := by
      intro c hc
      refine ⟨?_, fun h => hmark (h ▸ hc)⟩
      rcases hmode with rfl | ⟨hreturn, rfl⟩
      · rfl
      · simp only [Mode.completesTerminator, beq_eq_false_iff_ne]
        rintro rfl
        exact hsplit ⟨hreturn, hc⟩
    rw [ofText_eq, hfirst, Scanner.results_scan_fresh (hmode.imp_right And.right) hu, hplace,
      Scanner.results_scan_shift]
    rfl

/-- A comment line, an expression over two lines and a property without a value, with a control
character on the second line of the text behind them. -/
theorem ofText_append_continued :
    ∃ (t u : Text) (es es' : List Event),
      t = ['#', '\r', 'a', '=', '$', '{', 'b', '\\', '\n', ' ', 'c', '}', '\n'] ∧
      u = ['k', '\n', 'x', '\x01'] ∧ t.breaks = 3 ∧
      ofText t = es ++ [stop .document 13] ∧ ofText u = start .document 0 :: es' ∧
      invalid ⟨'\x01', 3, 1, 1⟩ ∈ es' ∧
      ofText (t ++ u) = es ++ es'.map (shift 13 3) := by
  obtain ⟨es, es', ht, hu, htu⟩ := @ofText_append
    ['#', '\r', 'a', '=', '$', '{', 'b', '\\', '\n', ' ', 'c', '}', '\n']
    ['k', '\n', 'x', '\x01'] ⟨'\n', by decide, by decide⟩ (by decide) (by decide) (by decide)
  refine ⟨_, _, es, es', rfl, rfl, by decide, ht, hu, ?_, htu⟩
  have hes' : es' = (ofText ['k', '\n', 'x', '\x01']).tail := by rw [hu]; rfl
  rw [hes']
  decide

end Event

end DotProperties
