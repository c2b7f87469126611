import DotProperties.Proofs.Event.LineEnds
import DotProperties.Proofs.Event.Polls

/-!
# Reading line by line

A text can be read by a loop over its lines as well. A `LineReader` stands at the start of a line
and knows what the line before left open (`LineState`). `LineReader.readLine` reads the line up to
its terminator by looking ahead : it skips spacing, and reads a key, a literal or an expression as
far as it goes before it decides what comes next.

In a mode of a scan the same line is read character by character (`Mode.restOfLine`). The two
agree part by part : a run that is read ahead is the run that the scan is in
(`Mode.restOfLine_run`), fragments read in a loop are what a scan finds in a value
(`Mode.restOfLine_between`), and so on up to the whole line (`LineReader.readLine_eq`).
-/

namespace DotProperties

open Event

/-! ## What a line leaves open -/

/-- What is open where the next line starts. -/
inductive LineState where
  /-- Nothing. -/
  | fresh
  /-- A key. -/
  | key
  /-- A value, between two fragments of it. -/
  | value
  /-- A literal of a value. -/
  | literal
  /-- An expression of a value. -/
  | expression
  deriving DecidableEq

namespace LineState

/-- The constructs in the document that are open, outermost first. -/
def constructs : LineState → List Construct
  | fresh => []
  | key => [.property, .key]
  | value => [.property, .value]
  | literal => [.property, .value, .literal]
  | expression => [.property, .value, .expression]

/-- The events that close what is open, innermost first. -/
def close (s : LineState) (offset : Nat) : List Event :=
  s.constructs.reverse.map (.stop · offset)

/-- What a line leaves open if a run goes on behind it. -/
def ofPending : Option Run → LineState
  | none => fresh
  | some .key => key
  | some .literal => literal
  | some .expression => expression

/-- The run that is open. -/
def pending : LineState → Option Run
  | fresh | value => none
  | key => some .key
  | literal => some .literal
  | expression => some .expression

@[simp] theorem pending_ofPending (q : Option Run) : (ofPending q).pending = q := by
  rcases q with _ | _ | _ | _ <;> rfl

@[simp] theorem close_ofPending (q : Option Run) (o : Nat) :
    (ofPending q).close o = closePending q o := by
  rcases q with _ | _ | _ | _ <;> rfl

theorem ofPending_ne_value (q : Option Run) : ofPending q ≠ value := by
  rcases q with _ | _ | _ | _ <;> exact nofun

theorem ofPending_pending {s : LineState} (h : s ≠ value) : ofPending s.pending = s := by
  cases s <;> first | rfl | exact absurd rfl h

end LineState

/-- What is left behind the characters that satisfy `q` starts with one that does not. -/
theorem Text.not_of_dropWhile_eq_cons {q : Char → Bool} {t u : Text} {c : Char}
    (h : t.dropWhile q = c :: u) : ¬q c = true := by
  have hhead := List.head?_dropWhile_not q t
  rw [h] at hhead
  simpa using hhead

/-! ## Places on a line -/

namespace Place

/-- The place `n` characters further on in the line. -/
def forward (p : Place) (n : Nat) : Place :=
  ⟨p.offset + n, p.position.line, p.position.character + n⟩

/-- The place behind the first characters of `t` that satisfy `q`. -/
def skip (q : Char → Bool) (p : Place) (t : Text) : Place := p.forward (t.takeWhile q).length

theorem forward_forward (p : Place) (m n : Nat) : (p.forward m).forward n = p.forward (m + n) := by
  simp [forward, Nat.add_assoc]

variable {q : Char → Bool} {c : Char} (p : Place) (t : Text)

theorem skip_cons_of_pos (h : q c = true) : p.skip q (c :: t) = (p.forward 1).skip q t := by
  rw [skip, skip, List.takeWhile_cons_of_pos h, forward_forward, List.length_cons, Nat.add_comm]

theorem skip_cons_of_neg (h : ¬q c = true) : p.skip q (c :: t) = p := by
  rw [skip, List.takeWhile_cons_of_neg h]
  rfl

end Place

/-! ## Runs -/

/-- A run as far as it is read ahead. -/
structure RunReading where
  /-- The reports on its characters. -/
  events : List Event
  /-- The place behind it. -/
  place : Place
  /-- The text from there on. -/
  rest : Text
  /-- A backslash in front of the terminator keeps it open. -/
  continued : Bool

/-- The reading behind other events. -/
def RunReading.behind (es : List Event) (x : RunReading) : RunReading :=
  { x with events := es ++ x.events }

namespace Run

/-- The character ends a run that it is not part of. -/
def endsAt (c : Char) : Run → Bool
  | key => c == '=' || c == ':' || isSpacing c
  | literal => c == '$'
  | expression => false

/-- Read a run on. A character behind a backslash is part of it whatever it is, and so is the brace
that ends an expression. -/
def readAhead (r : Run) (p : Place) : Text → RunReading
  | [] => ⟨[], p, [], false⟩
  | c :: t =>
    if c == '\\' then
      match t with
      | [] => ⟨[], p.forward 1, [], false⟩
      | d :: u =>
        -- The run goes on behind the terminator, which is left for the next line.
        if isTerminator d then ⟨[], p.forward 1, d :: u, true⟩
        else (r.readAhead ((p.forward 1).forward 1) u).behind (report (p.forward 1) d)
    else if isTerminator c || r.endsAt c then ⟨[], p, c :: t, false⟩
    else if r == .expression && c == '}' then ⟨report p c, p.forward 1, t, false⟩
    else (r.readAhead (p.forward 1) t).behind (report p c)

theorem length_readAhead_le (r : Run) (p : Place) (t : Text) :
    (r.readAhead p t).rest.length ≤ t.length := by
  fun_induction readAhead r p t <;> simp_all [RunReading.behind] <;> omega

/-- A literal takes the character that it starts at. -/
theorem length_readAhead_literal_lt {c : Char} (hc : ¬isTerminator c = true)
    (hd : ¬(c == '$') = true) (p : Place) (t : Text) :
    (literal.readAhead p (c :: t)).rest.length < (c :: t).length := by
  have hle := literal.length_readAhead_le
  have hstop : ¬(isTerminator c || literal.endsAt c) = true := by simp_all [endsAt]
  have hbrace : ¬(literal == expression && c == '}') = true := Bool.false_ne_true
  unfold readAhead
  rw [if_neg hstop, if_neg hbrace]
  split_ifs
  · cases t with
    | nil => exact Nat.one_pos
    | cons d u =>
      dsimp only
      split_ifs
      · exact Nat.lt_succ_self _
      · exact Nat.lt_succ_of_le (Nat.le_succ_of_le (hle _ u))
  · exact Nat.lt_succ_of_le (hle _ t)

end Run

/-! ## Lines -/

/-- A reader of lines under way. -/
structure LineReader where
  /-- The events so far. -/
  events : List Event
  /-- What is open. -/
  state : LineState
  /-- Where the next character stands. -/
  place : Place
  /-- The text from there on. -/
  rest : Text
  deriving DecidableEq

namespace LineReader

/-- The reader behind other events. -/
def behind (es : List Event) (r : LineReader) : LineReader := { r with events := es ++ r.events }

/-- The property stops here. -/
def endProperty (r : LineReader) : LineReader :=
  { r with events := r.events ++ [.stop .property r.place.offset], state := .fresh }

/-- The run was read up to the end of the line and stays open. -/
def leave (r : Run) (x : RunReading) : LineReader :=
  ⟨x.events, .ofPending (some r), x.place, x.rest⟩

/-- Read the fragments of a value up to the end of the line. The answer says whether the last one
stays open. -/
def readFragments (p : Place) (t : Text) : LineReader × Bool :=
  match t with
  | [] => (⟨[.stop .value p.offset], .value, p, []⟩, false)
  | c :: u =>
    if isTerminator c then (⟨[.stop .value p.offset], .value, p, c :: u⟩, false)
    else if c == '$' then
      if u.head? == some '{' then
        let x := (Run.expression.readAhead (p.forward 1) u).behind [.start .expression p.offset]
        if x.continued then (leave .expression x, true)
        else
          (readFragments x.place x.rest).map
            (behind (x.events ++ [.stop .expression x.place.offset])) id
      else
        -- A `$` without a brace is an expression by itself.
        (readFragments (p.forward 1) u).map
          (behind [.start .expression p.offset, .stop .expression (p.forward 1).offset]) id
    else
      let x := (Run.literal.readAhead p (c :: u)).behind [.start .literal p.offset]
      if x.continued then (leave .literal x, true)
      else
        (readFragments x.place x.rest).map (behind (x.events ++ [.stop .literal x.place.offset])) id
termination_by t.length
decreasing_by
  · exact Nat.lt_succ_of_le (Run.length_readAhead_le _ _ _)
  · exact Nat.lt_succ_self _
  · exact Run.length_readAhead_literal_lt ‹_› ‹_› _ _

/-- The property stops behind its value, unless a fragment of the value stays open. -/
def closeValue : LineReader × Bool → LineReader
  | (r, true) => r
  | (r, false) => r.endProperty

/-- Read the rest of a value up to the end of the line. -/
def readValue (p : Place) (t : Text) : LineReader := closeValue (readFragments p t)

/-- Read what stands behind a delimiter. There is no value at the end of the text. -/
def readAssigned (p : Place) (t : Text) : LineReader :=
  match t.dropWhile isSpacing with
  | [] => endProperty ⟨[], .fresh, p.skip isSpacing t, []⟩
  | c :: u =>
    (readValue (p.skip isSpacing t) (c :: u)).behind [.start .value (p.skip isSpacing t).offset]

/-- Skip the rest of the line. -/
def skipLine (p : Place) (t : Text) : LineReader :=
  ⟨[], .fresh, p.skip (!isTerminator ·) t, t.dropWhile (!isTerminator ·)⟩

/-- Read what stands behind a key. Without a delimiter the rest of the line is skipped. -/
def readAfterKey (p : Place) (t : Text) : LineReader :=
  match t.dropWhile isSpacing with
  | [] => (skipLine (p.skip isSpacing t) []).endProperty
  | c :: u =>
    if c == '=' || c == ':' then
      (readAssigned ((p.skip isSpacing t).forward 1) u).behind [.assign (p.skip isSpacing t).offset]
    else (skipLine (p.skip isSpacing t) (c :: u)).endProperty

/-- Read what stands behind a run. -/
def readBehind : Run → Place → Text → LineReader
  | .key => readAfterKey
  | .literal | .expression => readValue

/-- Read a run and what stands behind it, unless the run stays open. -/
def readRun (r : Run) (p : Place) (t : Text) : LineReader :=
  let x := r.readAhead p t
  if x.continued then leave r x
  else (readBehind r x.place x.rest).behind (x.events ++ [.stop r.construct x.place.offset])

/-- Read a comment. -/
def readComment (p : Place) (t : Text) : LineReader :=
  let r := skipLine p t
  { r with events := [.start .comment p.offset, .stop .comment r.place.offset] }

/-- Read a line from its first character on that is no spacing. -/
def readContent (s : LineState) (p : Place) (t : Text) : LineReader :=
  match s with
  | .fresh => (readRun .key p t).behind [.start .property p.offset, .start .key p.offset]
  | .key => readRun .key p t
  | .value => readValue p t
  | .literal => readRun .literal p t
  | .expression => readRun .expression p t

/-- Read a line up to its terminator. A blank line and a comment close what is open. -/
def lineFrom (s : LineState) (p : Place) (t : Text) : LineReader :=
  let q := p.skip isSpacing t
  match t.dropWhile isSpacing with
  | [] => ⟨s.close q.offset ++ [.blankLine q.offset], .fresh, q, []⟩
  | c :: u =>
    if isTerminator c then ⟨s.close q.offset ++ [.blankLine q.offset], .fresh, q, c :: u⟩
    else if c == '#' || c == ';' then (readComment q (c :: u)).behind (s.close q.offset)
    else readContent s q (c :: u)

/-- Read a line up to its terminator. -/
def readLine (r : LineReader) : LineReader := (lineFrom r.state r.place r.rest).behind r.events

/-- The place and the text behind a terminator, or the ones given if there is none. -/
def pastTerminator (p : Place) : Text → Place × Text
  | '\r' :: '\n' :: t => (⟨p.offset + 2, p.position.line + 1, 0⟩, t)
  | c :: t => if isTerminator c then (p.nextLine, t) else (p, c :: t)
  | [] => (p, [])

/-- Go on behind the terminator. -/
def skipTerminator (r : LineReader) : LineReader :=
  { r with
    place := (pastTerminator r.place r.rest).1, rest := (pastTerminator r.place r.rest).2 }

@[simp] theorem behind_behind (es es' : List Event) (r : LineReader) :
    (r.behind es').behind es = r.behind (es ++ es') := by
  simp [behind]

@[simp] theorem endProperty_behind (es : List Event) (r : LineReader) :
    (r.behind es).endProperty = r.endProperty.behind es := by
  simp [behind, endProperty]

@[simp] theorem closeValue_map (es : List Event) (x : LineReader × Bool) :
    closeValue (x.map (behind es) id) = (closeValue x).behind es := by
  obtain ⟨r, _ | _⟩ := x
  · exact endProperty_behind es r
  · rfl

end LineReader

/-! ## A line in a scan -/

namespace Mode

open LineReader

/-- Read a line from a place in it up to its terminator, character by character. -/
def restOfLine (m : Mode) (p : Place) : Text → LineReader
  | [] => ⟨m.onTextEnd p.offset, .fresh, p, []⟩
  | c :: t =>
    if isTerminator c then
      ⟨(m.onLineEnd p.offset).1, .ofPending (m.onLineEnd p.offset).2, p, c :: t⟩
    else ((m.onCharacter p c).2.restOfLine (p.forward 1) t).behind (m.onCharacter p c).1

variable {m : Mode} {c : Char} (p : Place) (t : Text)

theorem restOfLine_terminator (hc : isTerminator c = true) : m.restOfLine p (c :: t) =
    ⟨(m.onLineEnd p.offset).1, .ofPending (m.onLineEnd p.offset).2, p, c :: t⟩ := by
  rw [restOfLine, if_pos hc]

theorem restOfLine_cons (hc : ¬isTerminator c = true) : m.restOfLine p (c :: t) =
    ((m.onCharacter p c).2.restOfLine (p.forward 1) t).behind (m.onCharacter p c).1 := by
  rw [restOfLine, if_neg hc]

/-- If a mode reads a character like another one, with events in front, so it reads the line. -/
theorem restOfLine_behind (m' : Mode) (es : List Event)
    (hline : isTerminator c = true → m.onLineEnd p.offset =
      (es ++ (m'.onLineEnd p.offset).1, (m'.onLineEnd p.offset).2))
    (hread : ¬isTerminator c = true → m.onCharacter p c =
      (es ++ (m'.onCharacter p c).1, (m'.onCharacter p c).2)) :
    m.restOfLine p (c :: t) = (m'.restOfLine p (c :: t)).behind es := by
  by_cases hc : isTerminator c = true
  · rw [restOfLine_terminator p t hc, restOfLine_terminator p t hc, hline hc]
    rfl
  · rw [restOfLine_cons p t hc, restOfLine_cons p t hc, hread hc, LineReader.behind_behind]

/-- Characters that a mode passes over can be skipped at once. -/
theorem restOfLine_skip {q : Char → Bool}
    (hq : ∀ c, q c = true → ¬isTerminator c = true ∧ ∀ p, m.onCharacter p c = ([], m)) :
    m.restOfLine p t = m.restOfLine (p.skip q t) (t.dropWhile q) := by
  induction t generalizing p with
  | nil => rfl
  | cons c t ih =>
    by_cases h : q c = true
    · obtain ⟨hc, hread⟩ := hq c h
      rw [restOfLine_cons p t hc, hread, ih, Place.skip_cons_of_pos p t h,
        List.dropWhile_cons_of_pos h]
      rfl
    · rw [Place.skip_cons_of_neg p t h, List.dropWhile_cons_of_neg h]

theorem restOfLine_spacing (hm : ∀ p c, isSpacing c = true → m.onCharacter p c = ([], m)) :
    m.restOfLine p t = m.restOfLine (p.skip isSpacing t) (t.dropWhile isSpacing) := by
  refine restOfLine_skip p t fun c h => ⟨?_, fun p => hm p c h⟩
  rcases (by simpa [isSpacing] using h : c = ' ' ∨ c = '\t') with rfl | rfl <;> decide

/-- A mode that passes over a whole line. -/
theorem restOfLine_passed (hm : ∀ p c, m.onCharacter p c = ([], m))
    (hend : ∀ o, m.onTextEnd o = (m.onLineEnd o).1) (hnone : ∀ o, (m.onLineEnd o).2 = none) :
    m.restOfLine p t =
      { skipLine p t with events := (m.onLineEnd (skipLine p t).place.offset).1 } := by
  rw [restOfLine_skip (q := (!isTerminator ·)) p t fun c h => ⟨by simpa using h, fun p => hm p c⟩,
    skipLine]
  rcases h : t.dropWhile (!isTerminator ·) with _ | ⟨c, u⟩
  · rw [restOfLine, hend]
  · have hc : isTerminator c = true := by simpa using Text.not_of_dropWhile_eq_cons h
    rw [restOfLine_terminator _ u hc, hnone]
    rfl

/-- The mode behind a run. -/
def behindRun : Run → Mode
  | .key => afterKey
  | .literal | .expression => between

/-- What a run gives that was read ahead, and the rest of the line behind it. -/
def restBehind (r : Run) (x : RunReading) : LineReader :=
  if x.continued then leave r x
  else
    ((behindRun r).restOfLine x.place x.rest).behind
      (x.events ++ [.stop r.construct x.place.offset])

theorem restBehind_behind (r : Run) (es : List Event) (x : RunReading) :
    restBehind r (x.behind es) = (restBehind r x).behind es := by
  unfold restBehind
  split_ifs <;> simp_all [RunReading.behind, leave, behind]

/-- Where a character ends a run, the mode behind the run reads it. -/
theorem onRun_of_endsAt {r : Run} (hc : ¬(c == '\\') = true) (h : r.endsAt c = true) :
    onRun r p c = (.stop r.construct p.offset :: ((behindRun r).onCharacter p c).1,
      ((behindRun r).onCharacter p c).2) := by
  cases r with
  | key =>
    have hkey : (c == '=' || c == ':') = true ∨ isSpacing c = true := by
      simpa only [Run.endsAt, Bool.or_eq_true] using h
    by_cases hspacing : isSpacing c = true
    · have hnot : ¬(c == '=' || c == ':') = true := by
        rcases (by simpa [isSpacing] using hspacing : c = ' ' ∨ c = '\t') with rfl | rfl <;> decide
      simp only [onRun, onCharacter, behindRun, if_neg hc, if_neg hnot, if_pos hspacing]
      rfl
    · simp only [onRun, onCharacter, behindRun, if_neg hc, if_neg hspacing,
        if_pos (hkey.resolve_right hspacing)]
      rfl
  | literal =>
    have hdollar : (c == '$') = true := h
    simp only [onRun, onCharacter, behindRun, onFragment, if_neg hc, if_pos hdollar]
    rfl
  | expression => cases h

/-- A character that neither ends a run nor takes away the meaning of the next one is part of the
run. -/
theorem onRun_of_not_endsAt {r : Run} (hc : ¬(c == '\\') = true) (h : ¬r.endsAt c = true)
    (hbrace : ¬(r == .expression && c == '}') = true) : onRun r p c = (report p c, run r) := by
  cases r <;> simp_all [onRun, Run.endsAt]

/-- A run goes on up to where it is read ahead, and stops there or stays open. -/
theorem restOfLine_run (r : Run) : (run r).restOfLine p t = restBehind r (r.readAhead p t) := by
  fun_induction Run.readAhead r p t with
  | case1 p => cases r <;> rfl
  | case2 p c hc =>
    obtain rfl : c = '\\' := by simpa using hc
    cases r <;> rfl
  | case3 p c hc d u hd =>
    obtain rfl : c = '\\' := by simpa using hc
    have hescape : (run r).onCharacter p '\\' = ([], escape r) := by cases r <;> rfl
    rw [restOfLine_cons p _ (by decide), hescape, restOfLine_terminator _ u hd]
    rfl
  | case4 p c hc d u hd ih =>
    obtain rfl : c = '\\' := by simpa using hc
    have hescape : (run r).onCharacter p '\\' = ([], escape r) := by cases r <;> rfl
    rw [restOfLine_cons p _ (by decide), hescape, restOfLine_cons _ u hd, restBehind_behind, ← ih]
    rfl
  | case5 p c t hc hstop =>
    -- A terminator and a character that ends the run are left to the mode behind it.
    refine restOfLine_behind p t (behindRun r) _ (fun _ => by cases r <;> rfl) fun hc' => ?_
    exact onRun_of_endsAt p hc (by simpa [hc'] using hstop)
  | case6 p c t hc hstop hbrace =>
    obtain ⟨rfl, rfl⟩ : r = .expression ∧ c = '}' := by simpa using hbrace
    rfl
  | case7 p c t hc hstop hbrace ih =>
    obtain ⟨hterminator, hends⟩ := not_or.mp (Bool.or_eq_true _ _ ▸ hstop)
    rw [restOfLine_cons p t hterminator, onCharacter, onRun_of_not_endsAt p hc hends hbrace,
      restBehind_behind, ← ih]

/-! ## The parts of a line -/

theorem restOfLine_dollar_brace (h : (t.head? == some '{') = true) :
    dollar.restOfLine p t = (run .expression).restOfLine p t := by
  obtain ⟨u, rfl⟩ := List.head?_eq_some_iff.mp (eq_of_beq h)
  rfl

theorem restOfLine_dollar (h : ¬(t.head? == some '{') = true) :
    dollar.restOfLine p t = (between.restOfLine p t).behind [.stop .expression p.offset] := by
  cases t with
  | nil => rfl
  | cons c t =>
    have hbrace : ¬(c == '{') = true := by simpa using h
    exact restOfLine_behind p t between _ (fun _ => rfl) fun _ => if_neg hbrace

theorem restOfLine_literal (hc : ¬isTerminator c = true) (hd : ¬(c == '$') = true) :
    between.restOfLine p (c :: t) =
      ((run .literal).restOfLine p (c :: t)).behind [.start .literal p.offset] :=
  restOfLine_behind p t (run .literal) _ (absurd · hc) fun _ => if_neg hd

/-- Between two fragments the rest of a value is read. -/
theorem restOfLine_between : between.restOfLine p t = readValue p t := by
  have hdollar (p : Place) (t : Text) : between.restOfLine p ('$' :: t) =
      (dollar.restOfLine (p.forward 1) t).behind [.start .expression p.offset] := rfl
  unfold readValue
  -- The induction is on the loop over fragments. A run that is read ahead is left by the scan where
  -- the loop goes on, so the hypothesis is about the mode `between` again.
  fun_induction readFragments p t with
  | case1 p => rfl
  | case2 p c u hc =>
    rw [restOfLine_terminator p u hc]
    rfl
  | case3 p c u hc hd hbrace x hx =>
    obtain rfl : c = '$' := eq_of_beq hd
    rw [hdollar, restOfLine_dollar_brace _ u hbrace, restOfLine_run, ← restBehind_behind,
      restBehind, if_pos hx]
    rfl
  | case4 p c u hc hd hbrace x hx ih =>
    obtain rfl : c = '$' := eq_of_beq hd
    rw [hdollar, restOfLine_dollar_brace _ u hbrace, restOfLine_run, ← restBehind_behind,
      restBehind, if_neg hx, closeValue_map, ← ih]
    rfl
  | case5 p c u hc hd hbrace ih =>
    obtain rfl : c = '$' := eq_of_beq hd
    rw [hdollar, restOfLine_dollar _ u hbrace, ih, closeValue_map, behind_behind]
    rfl
  | case6 p c u hc hd x hx =>
    rw [restOfLine_literal p u hc hd, restOfLine_run, ← restBehind_behind, restBehind, if_pos hx]
    rfl
  | case7 p c u hc hd x hx ih =>
    rw [restOfLine_literal p u hc hd, restOfLine_run, ← restBehind_behind, restBehind, if_neg hx,
      closeValue_map, ← ih]
    rfl

/-- A character that is no spacing starts a value, and so does the end of the line. -/
theorem restOfLine_value (hc : ¬isSpacing c = true) : afterAssign.restOfLine p (c :: t) =
    (between.restOfLine p (c :: t)).behind [.start .value p.offset] :=
  restOfLine_behind p t between _ (fun _ => rfl) fun _ => if_neg hc

theorem restOfLine_afterAssign : afterAssign.restOfLine p t = readAssigned p t := by
  rw [restOfLine_spacing (m := afterAssign) p t fun p c h => if_pos h, readAssigned]
  split
  · next h => rw [h]; rfl
  · next c u h =>
    rw [h, restOfLine_value _ u (Text.not_of_dropWhile_eq_cons h), restOfLine_between]

theorem restOfLine_skipped : skipped.restOfLine p t = (skipLine p t).endProperty :=
  restOfLine_passed (m := skipped) p t (fun _ _ => rfl) (fun _ => rfl) fun _ => rfl

theorem restOfLine_comment :
    (comment.restOfLine p t).behind [.start .comment p.offset] = readComment p t := by
  rw [restOfLine_passed (m := comment) p t (fun _ _ => rfl) (fun _ => rfl) fun _ => rfl]
  rfl

theorem restOfLine_bare (hspacing : ¬isSpacing c = true)
    (hassign : ¬(c == '=' || c == ':') = true) :
    afterKey.restOfLine p (c :: t) = skipped.restOfLine p (c :: t) :=
  restOfLine_behind p t skipped [] (fun _ => rfl) fun _ =>
    (if_neg hspacing).trans (if_neg hassign)

theorem restOfLine_assign (h : (c == '=' || c == ':') = true) : afterKey.restOfLine p (c :: t) =
    (afterAssign.restOfLine (p.forward 1) t).behind [.assign p.offset] := by
  rcases (by simpa using h : c = '=' ∨ c = ':') with rfl | rfl <;> rfl

theorem restOfLine_afterKey : afterKey.restOfLine p t = readAfterKey p t := by
  rw [restOfLine_spacing (m := afterKey) p t fun p c h => if_pos h, readAfterKey]
  split
  · next h => rw [h]; rfl
  · next c u h =>
    rw [h]
    split_ifs with hassign
    · rw [restOfLine_assign _ u hassign, restOfLine_afterAssign]
    · rw [restOfLine_bare _ u (Text.not_of_dropWhile_eq_cons h) hassign, restOfLine_skipped]

theorem restOfLine_eq_readRun (r : Run) : (run r).restOfLine p t = readRun r p t := by
  rw [restOfLine_run, restBehind, readRun]
  split_ifs
  · rfl
  · cases r with
    | key => rw [behindRun, restOfLine_afterKey, readBehind]
    | literal | expression => rw [behindRun, restOfLine_between, readBehind]

/-! ## The whole line -/

section

variable {q : Option Run} (hspacing : ¬isSpacing c = true) (hterminator : ¬isTerminator c = true)
include hspacing hterminator

theorem restOfLine_indent_comment (hcomment : (c == '#' || c == ';') = true) :
    (indent q).restOfLine p (c :: t) =
      (readComment p (c :: t)).behind ((LineState.ofPending q).close p.offset) := by
  rw [← restOfLine_comment, LineReader.behind_behind, LineState.close_ofPending]
  refine restOfLine_behind p t comment _ (absurd · hterminator) fun _ => ?_
  have hread : (indent q).onCharacter p c = _ := (if_neg hspacing).trans (if_pos hcomment)
  rw [hread, onCharacter, List.append_nil]

theorem restOfLine_indent_content (hcomment : ¬(c == '#' || c == ';') = true) :
    (indent q).restOfLine p (c :: t) = readContent (.ofPending q) p (c :: t) := by
  have hread : (indent q).onCharacter p c = _ := (if_neg hspacing).trans (if_neg hcomment)
  cases q with
  | none =>
    rw [LineState.ofPending, readContent, ← restOfLine_eq_readRun]
    exact restOfLine_behind p t (run .key) _ (absurd · hterminator) fun _ => hread
  | some r =>
    have hcontent : readContent (.ofPending (some r)) p (c :: t) = readRun r p (c :: t) := by
      cases r <;> rfl
    rw [hcontent, ← restOfLine_eq_readRun]
    exact restOfLine_behind p t (run r) [] (absurd · hterminator) fun _ => hread

end

theorem restOfLine_indent (q : Option Run) :
    (indent q).restOfLine p t = lineFrom (.ofPending q) p t := by
  rw [restOfLine_spacing (m := indent q) p t fun p c h => if_pos h, lineFrom]
  split
  · next h =>
    rw [h, LineState.close_ofPending]
    rfl
  · next c u h =>
    have hspacing := Text.not_of_dropWhile_eq_cons h
    rw [h]
    split_ifs with hterminator hcomment
    · rw [restOfLine_terminator _ u hterminator, LineState.close_ofPending]
      rfl
    · exact restOfLine_indent_comment _ u hspacing hterminator hcomment
    · exact restOfLine_indent_content _ u hspacing hterminator hcomment

/-- A line is read ahead as a scan reads it, from its first character on. -/
theorem restOfLine_lineStart {t : Text} (h : t ≠ []) (q : Option Run) :
    (lineStart q).restOfLine p t = lineFrom (.ofPending q) p t := by
  obtain ⟨c, t, rfl⟩ := List.exists_cons_of_ne_nil h
  exact restOfLine_indent p (c :: t) q

end Mode

namespace LineReader

variable {r : LineReader}

theorem readLine_eq (hvalue : r.state ≠ .value) (hrest : r.rest ≠ []) :
    r.readLine = ((Mode.lineStart r.state.pending).restOfLine r.place r.rest).behind r.events := by
  rw [Mode.restOfLine_lineStart _ hrest, LineState.ofPending_pending hvalue]
  rfl

end LineReader

end DotProperties
