import DotProperties.Proofs.Event.LineReader
import DotProperties.Proofs.Event.Nesting

/-!
# What holds at the end of every line

A reader of lines takes one line after the other (`LineReader.Reaches`), and the loop over them
gives the events of the text (`LineReader.eventsOf_eq`). The loop comes to its end since every line
takes a character, its terminator included (`LineReader.exists_consumed`).

One line keeps an account (`LineReader.AtLine`) : the reader stands where its place says, what is
open follows from its state, and the events so far are the first ones of the text, with those of a
scan from here on behind them. So at the end of every line (`LineReader.EndsLine`) the reader stands
at a terminator or at the end of the text, and a value is open only together with a fragment of it.
-/

namespace DotProperties

open Event

namespace LineState

theorem constructs_ofPending (q : Option Run) : (ofPending q).constructs = pendingStack q := by
  rcases q with _ | _ | _ | _ <;> rfl

end LineState

/-! ## The end of a line -/

namespace Mode

open LineReader

variable (m : Mode) (p : Place) (t : Text)

/-- A line is read up to its terminator. -/
theorem rest_restOfLine : (m.restOfLine p t).rest = t.dropWhile (!isTerminator ·) := by
  induction t generalizing m p with
  | nil => rfl
  | cons c t ih =>
    by_cases hc : isTerminator c = true
    · rw [restOfLine_terminator p t hc, List.dropWhile_cons_of_neg (by simpa using hc)]
    · rw [restOfLine_cons p t hc, List.dropWhile_cons_of_pos (by simpa using hc)]
      exact ih _ _

theorem place_restOfLine : (m.restOfLine p t).place = p.skip (!isTerminator ·) t := by
  induction t generalizing m p with
  | nil => rfl
  | cons c t ih =>
    by_cases hc : isTerminator c = true
    · rw [restOfLine_terminator p t hc, Place.skip_cons_of_neg p t (by simpa using hc)]
    · rw [restOfLine_cons p t hc, Place.skip_cons_of_pos p t (by simpa using hc)]
      exact ih _ _

/-- A line leaves a run open, or nothing. -/
theorem state_restOfLine : (m.restOfLine p t).state ≠ .value := by
  induction t generalizing m p with
  | nil => exact LineState.ofPending_ne_value none
  | cons c t ih =>
    by_cases hc : isTerminator c = true
    · rw [restOfLine_terminator p t hc]
      exact LineState.ofPending_ne_value _
    · rw [restOfLine_cons p t hc]
      exact ih _ _

/-- The events of a line turn what is open before it into what its state names. -/
theorem nests_restOfLine (k : Construct) :
    Nests k m.stack (m.restOfLine p t).events (m.restOfLine p t).state.constructs := by
  induction t generalizing m p with
  | nil => exact nests_onTextEnd m p.offset
  | cons c t ih =>
    by_cases hc : isTerminator c = true
    · rw [restOfLine_terminator p t hc, LineState.constructs_ofPending]
      exact (m.endsLine_onLineEnd p.offset).nests
    · have hread := (m.reads_read p c).nests (k := k)
      rw [read_of_not_terminator (Bool.eq_false_iff.mpr hc)] at hread
      rw [restOfLine_cons p t hc]
      exact hread.append (ih _ _)

end Mode

/-! ## The terminator -/

namespace Scanner

/-- Where no line feed completes a terminator, the terminator is complete. -/
theorem results_scan_settled {m : Mode} {t : Text}
    (h : ∀ c ∈ t.head?, m.completesTerminator c = false) (p : Place) :
    Step.results (Scanner.scan ⟨m.settled, p⟩ t) = Step.results (Scanner.scan ⟨m, p⟩ t) := by
  cases t with
  | nil => rw [results_scan_nil, results_scan_nil, Mode.onTextEnd_settled]
  | cons c t =>
    have hread := Mode.read_settled (h c rfl) p
    have hafter : p.after m.settled c = p.after m c := by
      simp only [Place.after, Mode.not_completes_settled, Mode.isByteOrderMark_settled, h c rfl]
    rw [results_scan_cons, results_scan_cons, next, next, hread, hafter]

/-- A scan goes on at the start of a line behind a terminator, whichever it is. -/
theorem results_scan_lineEnd {m : Mode} (hm : m.settled = m) (p : Place) (e : LineEnd) {t : Text}
    (h : e = .carriageReturn → t.head? ≠ some '\n') :
    Step.results (Scanner.scan ⟨m, p⟩ (e.text ++ t)) = (m.onLineEnd p.offset).1 ++
      Step.results (Scanner.scan ⟨.lineStart (m.onLineEnd p.offset).2,
        p.offset + e.text.length, p.position.line + 1, 0⟩ t) := by
  cases e with
  | lineFeed =>
    have hfeed := results_scan_feed m p t
    rwa [hm] at hfeed
  | carriageReturn =>
    have hcomplete := results_scan_settled (m := .afterReturn (m.onLineEnd p.offset).2) (t := t)
      (fun c hc => beq_false_of_ne fun heq => h rfl (heq ▸ hc)) p.nextLine
    exact (results_scan_return m p t).trans (congrArg _ hcomplete.symm)
  | both => exact results_scan_return m p ('\n' :: t)

end Scanner

namespace LineReader

variable {r : LineReader}

theorem skipTerminator_nil (h : r.rest = []) : r.skipTerminator = r := by
  obtain ⟨es, s, p, t⟩ := r
  obtain rfl : t = [] := h
  rfl

/-- Behind a terminator the next line starts. -/
theorem exists_pastTerminator {c : Char} (hc : isTerminator c = true) (p : Place) (u : Text) :
    ∃ (e : LineEnd) (t : Text), (e = .carriageReturn → t.head? ≠ some '\n') ∧ c :: u = e.text ++ t ∧
      pastTerminator p (c :: u) =
        (⟨p.offset + e.text.length, p.position.line + 1, 0⟩, t) := by
  unfold pastTerminator
  split
  · next t heq => exact ⟨.both, t, nofun, heq, rfl⟩
  · next d t hpair heq =>
    obtain ⟨rfl, rfl⟩ := List.cons.inj heq
    rw [if_pos hc]
    rcases Text.isTerminator_iff.mp hc with rfl | rfl
    · exact ⟨.lineFeed, u, nofun, rfl, rfl⟩
    · exact ⟨.carriageReturn, u, fun _ => Text.head?_ne_feed fun t ht => hpair t rfl ht, rfl, rfl⟩
  · next heq => cases heq

theorem exists_skipTerminator {c : Char} {u : Text} (h : r.rest = c :: u)
    (hc : isTerminator c = true) : ∃ (e : LineEnd) (t : Text),
      (e = .carriageReturn → t.head? ≠ some '\n') ∧ c :: u = e.text ++ t ∧
      r.skipTerminator = { r with
        place := ⟨r.place.offset + e.text.length, r.place.position.line + 1, 0⟩, rest := t } := by
  obtain ⟨e, t, hreturn, htext, hpast⟩ := exists_pastTerminator hc r.place u
  exact ⟨e, t, hreturn, htext, by rw [skipTerminator, h, hpast]⟩

/-! ## Every line takes a character -/

/-- A line is read up to its terminator, whatever is open where it starts. -/
theorem rest_lineFrom (s : LineState) (p : Place) (t : Text) :
    (lineFrom s p t).rest = t.dropWhile (!isTerminator ·) := by
  rcases eq_or_ne s .value with rfl | hs
  · -- No line leaves a value open like this, but the loop has to come to its end there too.
    have hspacing : t.dropWhile (!isTerminator ·) =
        (t.dropWhile isSpacing).dropWhile (!isTerminator ·) := by
      rw [← Mode.comment.rest_restOfLine p t, Mode.restOfLine_spacing p t fun _ _ _ => rfl,
        Mode.rest_restOfLine]
    rw [lineFrom, hspacing]
    rcases t.dropWhile isSpacing with _ | ⟨c, u⟩
    · rfl
    · dsimp only
      split_ifs with hterminator
      · exact (List.dropWhile_cons_of_neg (by simpa using hterminator)).symm
      · rfl
      · rw [readContent, ← Mode.restOfLine_between, Mode.rest_restOfLine]
  · rw [← LineState.ofPending_pending hs, ← Mode.restOfLine_indent, Mode.rest_restOfLine]

theorem rest_readLine (r : LineReader) : r.readLine.rest = r.rest.dropWhile (!isTerminator ·) :=
  rest_lineFrom r.state r.place r.rest

/-- A line and its terminator hold a character. -/
theorem exists_consumed (h : r.rest ≠ []) :
    ∃ w ≠ [], r.rest = w ++ r.readLine.skipTerminator.rest := by
  have hsplit := (List.takeWhile_append_dropWhile (p := (!isTerminator ·)) (l := r.rest)).symm
  rcases hline : r.readLine.rest with _ | ⟨c, u⟩
  · refine ⟨r.rest, h, ?_⟩
    rw [skipTerminator_nil hline, hline, List.append_nil]
  · have hc : isTerminator c = true := by
      simpa using Text.not_of_dropWhile_eq_cons (r.rest_readLine.symm.trans hline)
    obtain ⟨e, t, -, htext, hskip⟩ := exists_skipTerminator hline hc
    refine ⟨r.rest.takeWhile (!isTerminator ·) ++ e.text, ?_, ?_⟩
    · cases e <;> simp [LineEnd.text]
    · rw [hskip, List.append_assoc, ← htext, ← hline, rest_readLine]
      exact hsplit

theorem length_rest_lt (h : r.rest ≠ []) :
    r.readLine.skipTerminator.rest.length < r.rest.length := by
  obtain ⟨w, hw, hsplit⟩ := exists_consumed h
  rw [hsplit, List.length_append]
  exact Nat.lt_add_of_pos_left (List.length_pos_of_ne_nil hw)

/-! ## The loop -/

/-- Read lines up to the end of the text. -/
def readLines (r : LineReader) : LineReader :=
  if r.rest = [] then r else readLines r.readLine.skipTerminator
termination_by r.rest.length
decreasing_by exact length_rest_lt ‹_›

/-- At the first line of a text, behind a byte order mark. -/
def first (t : Text) : LineReader := ⟨[.start .document 0], .fresh, ⟨t.mark.length, 0, 0⟩, t.body⟩

/-- The events of a text, line by line. What the last line leaves open stops at the end. -/
def eventsOf (t : Text) : List Event :=
  let r := readLines (first t)
  r.events ++ r.state.close r.place.offset ++ [.stop .document r.place.offset]

/-- The reader comes to a line of the text, or to its end. -/
inductive Reaches (t : Text) : LineReader → Prop
  | first : Reaches t (first t)
  | next {r : LineReader} : Reaches t r → r.rest ≠ [] → Reaches t r.readLine.skipTerminator

/-- What the reader knows is so. -/
structure Consistent (t : Text) (r : LineReader) : Prop where
  /-- The text before it has as many characters as its place says. -/
  stands : ∃ u, t = u ++ r.rest ∧ u.length = r.place.offset
  /-- No value is open without a fragment of it. -/
  state : r.state ≠ .value
  /-- The document is open, and what the state names, and nothing else. -/
  opened : ∀ k, level k r.events = (.document :: r.state.constructs).count k
  /-- The events so far are the first ones of the text. -/
  reported : r.events <+: ofText t

/-- The events that are still to come where a line starts. -/
def owed (r : LineReader) : List Event :=
  Step.results (Scanner.scan ⟨.lineStart r.state.pending, r.place⟩ r.rest)

/-- What holds where a line starts. -/
structure AtLine (t : Text) (r : LineReader) : Prop extends Consistent t r where
  /-- The events of the text are those so far and those still to come. -/
  account : ofText t = r.events ++ r.owed

/-- What holds where the line that starts at `r` was read up to `r'`. -/
structure EndsLine (t : Text) (r r' : LineReader) : Prop extends Consistent t r' where
  /-- The line is read up to its terminator, or to the end of the text. -/
  atEnd : ∀ c ∈ r'.rest.head?, isTerminator c = true
  /-- The line and its terminator are not empty. -/
  consumed : ∃ w ≠ [], r.rest = w ++ r'.skipTerminator.rest

end LineReader

/-- A line gives its events, and behind its terminator come those that are owed there. -/
theorem Scanner.results_scan_restOfLine {m : Mode} (hm : m.settled = m) (hstart : m ≠ .start)
    (p : Place) (t : Text) : Step.results (Scanner.scan ⟨m, p⟩ t) =
      (m.restOfLine p t).events ++ (m.restOfLine p t).skipTerminator.owed := by
  induction t generalizing m p with
  | nil => exact results_scan_nil ⟨m, p⟩
  | cons c t ih =>
    cases hc : isTerminator c with
    | true =>
      have hline := Mode.restOfLine_terminator (m := m) p t hc
      obtain ⟨e, u, hreturn, htext, hskip⟩ :=
        LineReader.exists_skipTerminator (r := m.restOfLine p (c :: t)) (by rw [hline]) hc
      rw [hskip, LineReader.owed, hline, LineState.pending_ofPending, htext]
      exact results_scan_lineEnd hm p e hreturn
    | false =>
      -- A byte order mark would not count for the position, but only the mode `start` knows it.
      have hmark : m.isByteOrderMark c = false := by simp [Mode.isByteOrderMark, hstart]
      have hread := Mode.read_of_not_terminator (m := m) hc p
      have hnext : Scanner.next ⟨m, p⟩ c = ⟨(m.onCharacter p c).2, p.forward 1⟩ := by
        simp [next, Place.after, hread, hmark, hc, m.not_completes_of_not_terminator hc,
          Place.forward]
      have hwithin : (m.onCharacter p c).2 ≠ .start := fun h => by
        have hline := Mode.withinLine_read p c hc hmark
        rw [hread, h] at hline
        cases hline
      have hsettled := m.settled_read_of_not_terminator p hc
      rw [hread] at hsettled
      rw [results_scan_cons, hnext, hread, ih hsettled hwithin (p.forward 1),
        Mode.restOfLine_cons p t (by simp [hc]), ← List.append_assoc]
      rfl

namespace LineReader

variable {t : Text} {r : LineReader}

theorem Consistent.skipTerminator (h : Consistent t r)
    (hend : ∀ c ∈ r.rest.head?, isTerminator c = true) : Consistent t r.skipTerminator := by
  rcases hrest : r.rest with _ | ⟨c, u⟩
  · rwa [skipTerminator_nil hrest]
  · obtain ⟨e, v, -, htext, hskip⟩ := exists_skipTerminator hrest (hend c (by rw [hrest]; rfl))
    obtain ⟨w, hw, hlength⟩ := h.stands
    rw [hskip]
    exact
      { stands := ⟨w ++ e.text, by rw [hw, hrest, htext, List.append_assoc], by simp [hlength]⟩
        state := h.state
        opened := h.opened
        reported := h.reported }

theorem AtLine.account_readLine (h : AtLine t r) (hrest : r.rest ≠ []) :
    ofText t = r.readLine.events ++ r.readLine.skipTerminator.owed := by
  have hscan := Scanner.results_scan_restOfLine (m := .lineStart r.state.pending) rfl nofun
  rw [h.account, readLine_eq h.state hrest, owed, hscan, ← List.append_assoc]
  rfl

/-- What holds at the start of a line gives what holds at its end. -/
theorem AtLine.endsLine (h : AtLine t r) (hrest : r.rest ≠ []) : EndsLine t r r.readLine where
  stands := by
    obtain ⟨u, hu, hlength⟩ := h.stands
    refine ⟨u ++ r.rest.takeWhile (!isTerminator ·), ?_, ?_⟩
    · rw [rest_readLine, List.append_assoc, List.takeWhile_append_dropWhile, ← hu]
    · rw [readLine_eq h.state hrest, List.length_append, hlength]
      exact congrArg Place.offset (Mode.place_restOfLine _ r.place r.rest).symm
  state := by
    rw [readLine_eq h.state hrest]
    exact Mode.state_restOfLine _ _ _
  opened k := by
    have hbefore := h.opened k
    have hline := (Mode.lineStart r.state.pending).nests_restOfLine r.place r.rest k
    rw [Mode.stack, ← LineState.constructs_ofPending, LineState.ofPending_pending h.state,
      Nests] at hline
    rw [readLine_eq h.state hrest]
    simp only [behind, level_append, hbefore, List.count_cons]
    omega
  reported := ⟨_, (h.account_readLine hrest).symm⟩
  atEnd c hc := by
    rw [rest_readLine] at hc
    obtain ⟨u, hu⟩ := List.head?_eq_some_iff.mp hc
    simpa using Text.not_of_dropWhile_eq_cons hu
  consumed := exists_consumed hrest

/-- What holds at the start of a line holds at the start of the next one. -/
theorem AtLine.next (h : AtLine t r) (hrest : r.rest ≠ []) :
    AtLine t r.readLine.skipTerminator where
  toConsistent := (h.endsLine hrest).toConsistent.skipTerminator (h.endsLine hrest).atEnd
  account := h.account_readLine hrest

theorem atLine_first (t : Text) : AtLine t (first t) := by
  have haccount : ofText t = (first t).events ++ (first t).owed := by
    by_cases hmark : t.head? = some '\uFEFF'
    · obtain ⟨u, rfl⟩ := List.head?_eq_some_iff.mp hmark
      rfl
    · have hhead : ∀ c ∈ t.head?, (Mode.lineStart none).completesTerminator c = false ∧
          c ≠ '\uFEFF' := fun c hc => ⟨rfl, fun h => hmark (h ▸ hc)⟩
      have hfresh := Scanner.results_scan_fresh (Or.inl rfl) hhead ⟨0, 0, 0⟩
      rw [first, Text.mark, Text.body, if_neg hmark, if_neg hmark]
      exact congrArg _ hfresh.symm
  exact
    { stands := ⟨t.mark, t.mark_append_body.symm, rfl⟩
      state := LineState.ofPending_ne_value none
      opened := fun k => by cases k <;> rfl
      reported := ⟨_, haccount.symm⟩
      account := haccount }

theorem Reaches.atLine (h : Reaches t r) : AtLine t r := by
  induction h with
  | first => exact atLine_first t
  | next _ hrest ih => exact ih.next hrest

theorem Reaches.readLines (h : Reaches t r) : Reaches t r.readLines ∧ r.readLines.rest = [] := by
  fun_induction LineReader.readLines r with
  | case1 r hrest => exact ⟨h, hrest⟩
  | case2 r hrest ih => exact ih (h.next hrest)

/-- Line by line a text gives its events. -/
theorem eventsOf_eq (t : Text) : eventsOf t = ofText t := by
  obtain ⟨hreaches, hrest⟩ := (Reaches.first (t := t)).readLines
  have hend := hreaches.atLine
  simp only [eventsOf]
  generalize (first t).readLines = r at hrest hend ⊢
  have hclose : r.state.close r.place.offset = closePending r.state.pending r.place.offset := by
    rw [← LineState.close_ofPending, LineState.ofPending_pending hend.state]
  rw [hend.account, owed, hrest, Scanner.results_scan_nil, hclose, List.append_assoc]
  rfl

/-- The loop over the lines of a text gives its events. Each line is read up to its terminator and
leaves open what the state behind it names, which is nothing, a key, a literal or an expression. -/
theorem readLine_endsLine (t : Text) :
    eventsOf t = ofText t ∧ ∀ r, Reaches t r → r.rest ≠ [] → EndsLine t r r.readLine :=
  ⟨eventsOf_eq t, fun _ h hrest => h.atLine.endsLine hrest⟩

/-- A literal that goes on on the second line stops at once, and the expression behind it stays open
in turn. -/
theorem readLine_endsLine_resumed : ∃ (t : Text) (r : LineReader),
    t = ['k', '=', 'a', '\\', '\r', '\n', ' ', '$', '{', 'b', '\\', '\n', '}'] ∧
      r = ⟨[.start .document 0, .start .property 0, .start .key 0, .stop .key 1, .assign 1,
        .start .value 2, .start .literal 2], .literal, ⟨6, 1, 0⟩, t.drop 6⟩ ∧
      Reaches t r ∧ EndsLine t r r.readLine ∧ r.readLine.state = .expression ∧
      r.readLine.rest = ['\n', '}'] := by
  let t : Text := ['k', '=', 'a', '\\', '\r', '\n', ' ', '$', '{', 'b', '\\', '\n', '}']
  let r : LineReader := ⟨[.start .document 0, .start .property 0, .start .key 0, .stop .key 1,
    .assign 1, .start .value 2, .start .literal 2], .literal, ⟨6, 1, 0⟩, t.drop 6⟩
  -- Fragments are read by well-founded recursion, so a line is evaluated as a scan reads it.
  have hfirst : (first t).readLine.skipTerminator = r := by
    rw [readLine_eq (by decide) (by decide)]
    decide
  have hreaches : Reaches t r := hfirst ▸ .next .first nofun
  refine ⟨t, r, rfl, rfl, hreaches, (readLine_endsLine t).2 r hreaches nofun, ?_⟩
  rw [readLine_eq (by decide) (by decide)]
  decide

end LineReader

end DotProperties
