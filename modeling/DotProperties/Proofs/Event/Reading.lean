import DotProperties.Proofs.Text.Continuation
import Mathlib.Tactic.SplitIfs

/-!
# What reading a character does

A scan in the mode `m` answers a character with events and a new mode. It gets there in small
moves. First it may turn to other modes that are to read the character in its place, with events in
front of theirs (`Mode.Turns`) : at the start of a line it turns to the run that goes on there or to
a new key, and in a value to a literal. In the end one mode takes the character (`Mode.Takes`).
The one after the other is `Mode.Reads`, and a scan reads in no other way (`Mode.reads_iff`). So
what holds of each turn and of each way to take a character holds of reading.

The end of a line and the end of the text close what is open (`Mode.close`), the innermost construct
first, and do little else (`Mode.endsLine_onLineEnd`, `Mode.onTextEnd_cases`).
-/

namespace DotProperties

/-! ## What is open -/

/-- A run and the constructs around it, outermost first. -/
def Run.stack : Run → List Construct
  | .key => [.property, .key]
  | .literal => [.property, .value, .literal]
  | .expression => [.property, .value, .expression]

/-- A run that may be open, and the constructs around it. -/
def pendingStack (pending : Option Run) : List Construct := (pending.map Run.stack).getD []

namespace Mode

/-- The constructs in the document that are open, outermost first. -/
def stack : Mode → List Construct
  | start => []
  | lineStart pending | afterReturn pending | indent pending => pendingStack pending
  | run r | escape r => r.stack
  | afterKey | skipped | afterAssign => [.property]
  | between => [.property, .value]
  | dollar => [.property, .value, .expression]
  | comment => [.comment]

/-- The events at which what is open stops, innermost first. -/
def close (m : Mode) (o : Nat) : List Event := m.stack.reverse.map (.stop · o)

theorem exists_of_mem_close {m : Mode} {o : Nat} {e : Event} (h : e ∈ m.close o) :
    ∃ k, e = .stop k o := by
  obtain ⟨k, -, rfl⟩ := List.mem_map.mp h
  exact ⟨k, rfl⟩

theorem closePending_eq (q : Option Run) (o : Nat) : closePending q o = (indent q).close o := by
  rcases q with _ | _ | _ | _ <;> rfl

theorem close_eq (r : Run) (o : Nat) : r.close o = (run r).close o := closePending_eq (some r) o

/-! ## The end of a line -/

/-- Nothing of the line was read but spacing. -/
def isBlankLine : Mode → Bool
  | start | lineStart _ | afterReturn _ | indent _ => true
  | _ => false

/-- How a line ends at the offset `o` : the events, and the run that the next line goes on with. -/
inductive EndsLine (o : Nat) : Mode → List Event × Option Run → Prop
  /-- Behind a backslash the run stays open. -/
  | continued (r : Run) : EndsLine o (escape r) ([], some r)
  /-- Behind a delimiter a value starts that stops at once. -/
  | value : EndsLine o afterAssign (.start .value o :: between.close o, none)
  /-- A blank line closes what the line before left open. -/
  | blank {m : Mode} : m.isBlankLine = true → EndsLine o m (m.close o ++ [.blankLine o], none)
  /-- Any other line closes what is open. -/
  | closed {m : Mode} : m.isBlankLine = false → m ≠ afterAssign → (∀ r, m ≠ escape r) →
      EndsLine o m (m.close o, none)

theorem endsLine_onLineEnd (m : Mode) (o : Nat) : EndsLine o m (m.onLineEnd o) := by
  cases m with
  | start => exact .blank rfl
  | lineStart q | afterReturn q | indent q =>
    rw [onLineEnd, closePending_eq]
    exact .blank rfl
  | escape r => exact .continued r
  | afterAssign => exact .value
  | run r =>
    rw [onLineEnd, close_eq]
    exact .closed rfl nofun nofun
  | afterKey | skipped | between | dollar | comment => exact .closed rfl nofun nofun

/-- The end of the text closes what is open too. There a line of spacing is blank, and a line that
was not begun is not. -/
theorem onTextEnd_cases (m : Mode) :
    (∀ o, m.onTextEnd o = m.close o) ∨
      m.isBlankLine = true ∧ ∀ o, m.onTextEnd o = m.close o ++ [.blankLine o] := by
  cases m with
  | indent q =>
    refine Or.inr ⟨rfl, fun o => ?_⟩
    rw [← closePending_eq]
    rfl
  | lineStart q | afterReturn q => exact Or.inl (closePending_eq q)
  | run r | escape r => exact Or.inl (close_eq r)
  | start | afterKey | skipped | afterAssign | between | dollar | comment =>
    exact Or.inl fun _ => rfl

/-- The mode behind the terminator `c`. -/
def nextLine (c : Char) (pending : Option Run) : Mode :=
  if c == '\r' then afterReturn pending else lineStart pending

/-- A terminator leads to a new line, whichever one it is. -/
theorem apply_nextLine {α : Sort _} (f : Mode → α) {q : Option Run}
    (h : f (afterReturn q) = f (lineStart q)) (c : Char) : f (nextLine c q) = f (lineStart q) := by
  unfold nextLine
  split_ifs
  · exact h
  · rfl

end Mode

/-! ## Turns -/

/-- The character is part of what a line holds : it is not blank and starts no comment. -/
def isContent (c : Char) : Bool := !(isSpacing c || isTerminator c || c == '#' || c == ';')

/-- The character stops the run. -/
def Run.stopsAt (c : Char) : Run → Bool
  | key => c == '=' || c == ':' || isSpacing c
  | literal => c == '$'
  | expression => c == '}'

namespace Mode

/-- A mode that is to read `c` at `p` leaves `c` to another one, with events in front. -/
inductive Turns (p : Place) (c : Char) : Mode → List Event → Mode → Prop
  /-- The first line of a text is a line. -/
  | start : c ≠ '\uFEFF' → Turns p c start [] (indent none)
  /-- A line starts with its leading spacing. -/
  | lineStart (q : Option Run) : Turns p c (lineStart q) [] (indent q)
  /-- The terminator of the line before is complete. -/
  | afterReturn (q : Option Run) : c ≠ '\n' → Turns p c (afterReturn q) [] (indent q)
  /-- The line goes on with the run that was left open. -/
  | resume (r : Run) : isContent c = true → Turns p c (indent (some r)) [] (run r)
  /-- A property starts with its key. -/
  | property : isContent c = true → Turns p c (indent none)
      [.start .property p.offset, .start .key p.offset] (run .key)
  /-- A key stops. -/
  | key : Run.key.stopsAt c = true → Turns p c (run .key) [.stop .key p.offset] afterKey
  /-- There is no delimiter behind the key. -/
  | skip : isSpacing c = false → c ≠ '=' ∧ c ≠ ':' → Turns p c afterKey [] skipped
  /-- A value starts. -/
  | value : isSpacing c = false → Turns p c afterAssign [.start .value p.offset] between
  /-- A literal starts. -/
  | literal : isTerminator c = false → c ≠ '$' →
      Turns p c between [.start .literal p.offset] (run .literal)
  /-- An expression stops behind its `$`. -/
  | dollar : c ≠ '{' → Turns p c dollar [.stop .expression p.offset] between

/-- A mode takes the character `c` at `p`. -/
inductive Takes (p : Place) (c : Char) : Mode → List Event → Mode → Prop
  /-- A line feed belongs to the terminator of the line before. -/
  | feed (q : Option Run) : c = '\n' → Takes p c (afterReturn q) [] (lineStart q)
  /-- The line ends. -/
  | lineEnd {m : Mode} {outcome : List Event × Option Run} : isTerminator c = true →
      m.completesTerminator c = false → EndsLine p.offset m outcome →
        Takes p c m outcome.1 (nextLine c outcome.2)
  /-- A byte order mark. -/
  | mark : c = '\uFEFF' → Takes p c start [] (lineStart none)
  /-- Leading spacing. -/
  | indent (q : Option Run) : isSpacing c = true → Takes p c (indent q) [] (indent q)
  /-- A comment starts and closes what the line before left open. -/
  | comment (q : Option Run) : c = '#' ∨ c = ';' →
      Takes p c (indent q) ((indent q).close p.offset ++ [.start .comment p.offset]) comment
  /-- A backslash in a run. -/
  | backslash (r : Run) : c = '\\' → Takes p c (run r) [] (escape r)
  /-- A character behind a backslash. -/
  | escaped (r : Run) : isTerminator c = false → Takes p c (escape r) (report p c) (run r)
  /-- Any other character of a run. -/
  | part (r : Run) : c ≠ '\\' → isTerminator c = false → r.stopsAt c = false →
      Takes p c (run r) (report p c) (run r)
  /-- A literal stops where an expression starts. -/
  | literal : c = '$' →
      Takes p c (run .literal) [.stop .literal p.offset, .start .expression p.offset] dollar
  /-- An expression starts behind another one or is the first fragment of the value. -/
  | dollar : c = '$' → Takes p c between [.start .expression p.offset] dollar
  /-- The opening brace of an expression. -/
  | opening : c = '{' → Takes p c dollar [] (run .expression)
  /-- The closing brace of an expression. -/
  | closing : c = '}' →
      Takes p c (run .expression) [.stop .expression (p.offset + 1)] between
  /-- The delimiter. -/
  | assign : c = '=' ∨ c = ':' → Takes p c afterKey [.assign p.offset] afterAssign
  /-- Spacing in front of the delimiter. -/
  | beforeAssign : isSpacing c = true → Takes p c afterKey [] afterKey
  /-- Spacing behind the delimiter. -/
  | behindAssign : isSpacing c = true → Takes p c afterAssign [] afterAssign
  /-- A character that is skipped. -/
  | skipped : isTerminator c = false → Takes p c skipped [] skipped
  /-- A character of a comment. -/
  | inComment : isTerminator c = false → Takes p c comment [] comment

/-- A scan reads `c` at `p` in the mode `m`, with these events, and is in the mode `m'` then. -/
inductive Reads (p : Place) (c : Char) : Mode → List Event → Mode → Prop
  | take {m m' : Mode} {es : List Event} : Takes p c m es m' → Reads p c m es m'
  | turn {m m' m'' : Mode} {es es' : List Event} : Turns p c m es m' → Reads p c m' es' m'' →
      Reads p c m (es ++ es') m''

variable {p : Place} {c : Char} {m m' : Mode} {es : List Event}

/-! ## Reading in moves -/

theorem isContent_iff : isContent c = true ↔
    isSpacing c = false ∧ isTerminator c = false ∧ c ≠ '#' ∧ c ≠ ';' := by
  simp [isContent, and_assoc]

theorem EndsLine.eq {o : Nat} {outcome : List Event × Option Run} (h : EndsLine o m outcome) :
    m.onLineEnd o = outcome := by
  cases h with
  | continued | value => rfl
  | blank hm =>
    cases m with
    | start => rfl
    | lineStart q | afterReturn q | indent q =>
      exact congrArg (fun es => (es ++ [Event.blankLine o], none)) (closePending_eq q o)
    | _ => cases hm
  | closed hm hassign hescape =>
    cases m with
    | run r => rw [onLineEnd, close_eq]
    | afterKey | skipped | between | dollar | comment => rfl
    | afterAssign => exact (hassign rfl).elim
    | escape r => exact (hescape r rfl).elim
    | _ => cases hm

theorem eq_feed_of_completes (h : m.completesTerminator c = true) : c = '\n' := by
  cases m with
  | afterReturn q => exact eq_of_beq h
  | _ => cases h

theorem not_completes_of_not_terminator (m : Mode) (hc : isTerminator c = false) :
    m.completesTerminator c = false := by
  refine Bool.eq_false_iff.mpr fun h => ?_
  obtain rfl := eq_feed_of_completes h
  cases hc

theorem read_of_not_terminator (hc : isTerminator c = false) (p : Place) :
    m.read p c = m.onCharacter p c := by
  rw [read, m.not_completes_of_not_terminator hc, hc]
  rfl

theorem read_of_terminator (hm : m.completesTerminator c = false) (hc : isTerminator c = true) :
    m.read p c = ((m.onLineEnd p.offset).1, nextLine c (m.onLineEnd p.offset).2) := by
  rw [read, hm, hc]
  rfl

theorem Turns.read_eq (h : Turns p c m es m') :
    m.read p c = (es ++ (m'.read p c).1, (m'.read p c).2) := by
  cases h with
  | start hc => simp [read, completesTerminator, onCharacter, onLineEnd, hc, closePending]
  | lineStart q => rfl
  | afterReturn q hc => simp [read, completesTerminator, onCharacter, onLineEnd, hc]
  | resume r hc =>
    obtain ⟨hspacing, hterminator, hcomment⟩ := isContent_iff.mp hc
    rw [read_of_not_terminator hterminator, read_of_not_terminator hterminator]
    simp [onCharacter, onIndent, onContent, hspacing, hcomment]
  | property hc =>
    obtain ⟨hspacing, hterminator, hcomment⟩ := isContent_iff.mp hc
    rw [read_of_not_terminator hterminator, read_of_not_terminator hterminator]
    simp [onCharacter, onIndent, onContent, hspacing, hcomment]
  | key hc =>
    have hcases : c = '=' ∨ c = ':' ∨ c = ' ' ∨ c = '\t' := by
      simpa [Run.stopsAt, isSpacing, or_assoc] using hc
    rcases hcases with rfl | rfl | rfl | rfl <;> rfl
  | skip hspacing hassign =>
    simp [read, completesTerminator, onCharacter, onLineEnd, hspacing, hassign]
  | value hspacing =>
    unfold read
    split_ifs <;> simp_all [completesTerminator, onCharacter, onLineEnd]
  | literal hc hdollar =>
    rw [read_of_not_terminator hc, read_of_not_terminator hc]
    simp [onCharacter, onFragment, hdollar]
  | dollar hc =>
    unfold read
    split_ifs <;> simp_all [completesTerminator, onCharacter, onLineEnd]

theorem Takes.read_eq (h : Takes p c m es m') : m.read p c = (es, m') := by
  cases h with
  | feed q hc => simp [read, completesTerminator, hc, pending]
  | lineEnd hc hm hend => rw [read_of_terminator hm hc, hend.eq]
  | mark hc => subst hc; rfl
  | indent q hc | beforeAssign hc | behindAssign hc =>
    rcases Text.isSpacing_iff.mp hc with rfl | rfl <;> rfl
  | comment q hc =>
    rw [← closePending_eq]
    rcases hc with rfl | rfl <;> rfl
  | backslash r hc => subst hc; rfl
  | escaped r hc => exact read_of_not_terminator hc p
  | part r hbackslash hterminator hstops =>
    rw [read_of_not_terminator hterminator]
    cases r <;> simp_all [onCharacter, onRun, Run.stopsAt]
  | literal hc | dollar hc | opening hc | closing hc => subst hc; rfl
  | assign hc => rcases hc with rfl | rfl <;> rfl
  | skipped hc | inComment hc => exact read_of_not_terminator hc p

theorem Reads.read_eq (h : Reads p c m es m') : m.read p c = (es, m') := by
  induction h with
  | take h => exact h.read_eq
  | turn h _ ih => rw [h.read_eq, ih]

theorem Turns.exists_reads (h : Turns p c m es m') (hreads : ∃ es' m'', Reads p c m' es' m'') :
    ∃ es' m'', Reads p c m es' m'' := by
  obtain ⟨es', m'', hreads⟩ := hreads
  exact ⟨_, m'', .turn h hreads⟩

theorem Takes.exists_reads (h : Takes p c m es m') : ∃ es' m'', Reads p c m es' m'' :=
  ⟨es, m', .take h⟩

theorem exists_reads_afterKey (hc : isTerminator c = false) :
    ∃ es m', Reads p c afterKey es m' := by
  by_cases hspacing : isSpacing c = true
  · exact (Takes.beforeAssign hspacing).exists_reads
  by_cases hassign : c = '=' ∨ c = ':'
  · exact (Takes.assign hassign).exists_reads
  · exact (Turns.skip (Bool.eq_false_iff.mpr hspacing) (not_or.mp hassign)).exists_reads
      (Takes.skipped hc).exists_reads

theorem exists_reads_run (hc : isTerminator c = false) (r : Run) :
    ∃ es m', Reads p c (run r) es m' := by
  by_cases hbackslash : c = '\\'
  · exact (Takes.backslash r hbackslash).exists_reads
  by_cases hstops : r.stopsAt c = true
  · cases r with
    | key => exact (Turns.key hstops).exists_reads (exists_reads_afterKey hc)
    | literal => exact (Takes.literal (eq_of_beq hstops)).exists_reads
    | expression => exact (Takes.closing (eq_of_beq hstops)).exists_reads
  · exact (Takes.part r hbackslash hc (Bool.eq_false_iff.mpr hstops)).exists_reads

theorem exists_reads_between (hc : isTerminator c = false) :
    ∃ es m', Reads p c between es m' := by
  by_cases hdollar : c = '$'
  · exact (Takes.dollar hdollar).exists_reads
  · exact (Turns.literal hc hdollar).exists_reads (exists_reads_run hc .literal)

theorem exists_reads_indent (hc : isTerminator c = false) (q : Option Run) :
    ∃ es m', Reads p c (indent q) es m' := by
  by_cases hspacing : isSpacing c = true
  · exact (Takes.indent q hspacing).exists_reads
  by_cases hcomment : c = '#' ∨ c = ';'
  · exact (Takes.comment q hcomment).exists_reads
  have hcontent : isContent c = true :=
    isContent_iff.mpr ⟨Bool.eq_false_iff.mpr hspacing, hc, not_or.mp hcomment⟩
  cases q with
  | none => exact (Turns.property hcontent).exists_reads (exists_reads_run hc .key)
  | some r => exact (Turns.resume r hcontent).exists_reads (exists_reads_run hc r)

/-- There is a way to read every character in every mode. -/
theorem exists_reads (m : Mode) (p : Place) (c : Char) : ∃ es m', Reads p c m es m' := by
  by_cases hcompletes : m.completesTerminator c = true
  · cases m with
    | afterReturn q => exact (Takes.feed q (eq_of_beq hcompletes)).exists_reads
    | _ => cases hcompletes
  rw [Bool.not_eq_true] at hcompletes
  cases hc : isTerminator c with
  | true => exact (Takes.lineEnd hc hcompletes (m.endsLine_onLineEnd p.offset)).exists_reads
  | false =>
    have hindent := exists_reads_indent (p := p) hc
    cases m with
    | start =>
      by_cases hmark : c = '\uFEFF'
      · exact (Takes.mark hmark).exists_reads
      · exact (Turns.start hmark).exists_reads (hindent none)
    | lineStart q => exact (Turns.lineStart q).exists_reads (hindent q)
    | afterReturn q =>
      exact (Turns.afterReturn q (ne_of_beq_false hcompletes)).exists_reads (hindent q)
    | indent q => exact hindent q
    | run r => exact exists_reads_run hc r
    | escape r => exact (Takes.escaped r hc).exists_reads
    | afterKey => exact exists_reads_afterKey hc
    | skipped => exact (Takes.skipped hc).exists_reads
    | comment => exact (Takes.inComment hc).exists_reads
    | between => exact exists_reads_between hc
    | afterAssign =>
      by_cases hspacing : isSpacing c = true
      · exact (Takes.behindAssign hspacing).exists_reads
      · exact (Turns.value (Bool.eq_false_iff.mpr hspacing)).exists_reads (exists_reads_between hc)
    | dollar =>
      by_cases hbrace : c = '{'
      · exact (Takes.opening hbrace).exists_reads
      · exact (Turns.dollar hbrace).exists_reads (exists_reads_between hc)

/-- The moves are what a scan does with a character. -/
theorem reads_iff : Reads p c m es m' ↔ m.read p c = (es, m') := by
  refine ⟨Reads.read_eq, fun h => ?_⟩
  obtain ⟨es', m'', hreads⟩ := exists_reads m p c
  obtain ⟨rfl, rfl⟩ := Prod.mk.inj (hreads.read_eq.symm.trans h)
  exact hreads

theorem reads_read (m : Mode) (p : Place) (c : Char) : Reads p c m (m.read p c).1 (m.read p c).2 :=
  reads_iff.mpr rfl

end Mode

end DotProperties
