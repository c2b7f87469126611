import DotProperties.Proofs.Cancellation
import DotProperties.Proofs.Event.Reading

/-!
# The grammar of event streams

The events of a text form a word of a small grammar. A document is a row of blank lines,
comments and properties (`Event.AreItems`). A property is a key, possibly a delimiter, and
possibly a value behind it (`Event.IsProperty`); a value is a row of literals and expressions
(`Event.AreFragments`). Keys, literals and expressions hold nothing but reports of invalid
characters (`Event.IsLeaf`). A property starts where its key does, and stops where its value
does if it has one.

A scan that stands in the middle of a text still owes the rest of such a word. `Completes n m`
are the rests that the mode `m` allows, for a text of `n` characters : what closes the
constructs left open, and then more items. Reading a character keeps the account
(`Mode.Reads.completes`) : put in front of a rest that the new mode allows, its events give one
that the old mode allows. So do the events at the end of the text
(`Mode.completes_onTextEnd`), and by induction a scan gives what its mode allows
(`Scanner.completes_scan`).
-/

namespace DotProperties

namespace Event

/-! ## The grammar -/

/-- A construct that starts at `o` and holds reports of invalid characters only. -/
inductive IsLeaf (c : Construct) (o : Nat) : List Event → Prop
  | intro (errors : List InvalidCharacter) (o' : Nat) :
      IsLeaf c o (start c o :: (errors.map invalid ++ [stop c o']))

/-- Literals and expressions in a row. -/
inductive AreFragments : List Event → Prop
  | nil : AreFragments []
  | literal {o : Nat} {f fs : List Event} :
      IsLeaf .literal o f → AreFragments fs → AreFragments (f ++ fs)
  | expression {o : Nat} {f fs : List Event} :
      IsLeaf .expression o f → AreFragments fs → AreFragments (f ++ fs)

/-- A value that stops before `o'`. -/
inductive IsValue (o' : Nat) : List Event → Prop
  | intro (o : Nat) {fs : List Event} :
      AreFragments fs → IsValue o' (start .value o :: (fs ++ [stop .value o']))

/-- A property. Its key starts where it does, and its value stops where it does. -/
inductive IsProperty : List Event → Prop
  | bare {o : Nat} {k : List Event} (o' : Nat) :
      IsLeaf .key o k → IsProperty (start .property o :: (k ++ [stop .property o']))
  | assigned {o : Nat} {k : List Event} (a o' : Nat) :
      IsLeaf .key o k →
        IsProperty (start .property o :: (k ++ [assign a, stop .property o']))
  | valued {o o' : Nat} {k v : List Event} (a : Nat) :
      IsLeaf .key o k → IsValue o' v →
        IsProperty (start .property o :: (k ++ assign a :: (v ++ [stop .property o'])))

/-- Blank lines, comments and properties in a row. -/
inductive AreItems : List Event → Prop
  | nil : AreItems []
  | blankLine (o : Nat) {es : List Event} : AreItems es → AreItems (blankLine o :: es)
  | comment (o o' : Nat) {es : List Event} :
      AreItems es → AreItems (start .comment o :: stop .comment o' :: es)
  | property {p es : List Event} : IsProperty p → AreItems es → AreItems (p ++ es)

/-- The events of a document of `n` characters. -/
inductive IsDocument (n : Nat) : List Event → Prop
  | intro {es : List Event} :
      AreItems es → IsDocument n (start .document 0 :: (es ++ [stop .document n]))

end Event

open Event

/-- The construct that a run is. -/
def Run.construct : Run → Construct
  | .key => .key
  | .literal => .literal
  | .expression => .expression

/-! ## What is still owed

The rests of a document of `n` characters, by what is open. -/

section Rest

variable {n : Nat} {es : List Event}

/-- Nothing but the document is open. -/
inductive InDocument (n : Nat) : List Event → Prop
  | intro {es : List Event} : AreItems es → InDocument n (es ++ [stop .document n])

/-- A comment is open. -/
inductive InComment (n : Nat) : List Event → Prop
  | stop (o : Nat) {es : List Event} : InDocument n es → InComment n (stop .comment o :: es)

/-- A property is open that gets no more parts. -/
inductive InProperty (n : Nat) : List Event → Prop
  | stop (o : Nat) {es : List Event} : InDocument n es → InProperty n (stop .property o :: es)

/-- A value is open, between two fragments of it. -/
inductive InValue (n : Nat) : List Event → Prop
  | intro {fs : List Event} (o : Nat) {es : List Event} : AreFragments fs → InDocument n es →
      InValue n (fs ++ Event.stop .value o :: Event.stop .property o :: es)

/-- A property is open whose delimiter was read. -/
inductive AfterAssign (n : Nat) : List Event → Prop
  | bare {es : List Event} : InProperty n es → AfterAssign n es
  | value (o : Nat) {es : List Event} : InValue n es → AfterAssign n (start .value o :: es)

/-- A property is open whose key was read. -/
inductive AfterKey (n : Nat) : List Event → Prop
  | bare {es : List Event} : InProperty n es → AfterKey n es
  | assign (o : Nat) {es : List Event} : AfterAssign n es → AfterKey n (assign o :: es)

/-- What a run is part of is open, and the run was read. -/
def AfterRun (n : Nat) : Run → List Event → Prop
  | .key => AfterKey n
  | .literal | .expression => InValue n

/-- A run is open. -/
inductive InRun (n : Nat) (r : Run) : List Event → Prop
  | intro (errors : List InvalidCharacter) (o : Nat) {es : List Event} : AfterRun n r es →
      InRun n r (errors.map invalid ++ Event.stop r.construct o :: es)

/-- A run is open, or else nothing but the document. -/
def InPending (n : Nat) : Option Run → List Event → Prop
  | some r => InRun n r
  | none => InDocument n

/-- The rests that a mode allows. -/
def Completes (n : Nat) : Mode → List Event → Prop
  | .start => InDocument n
  | .lineStart pending | .afterReturn pending | .indent pending => InPending n pending
  | .run r | .escape r => InRun n r
  | .afterKey => AfterKey n
  | .skipped => InProperty n
  | .afterAssign => AfterAssign n
  | .between => InValue n
  | .dollar => InRun n .expression
  | .comment => InComment n

theorem InRun.stop {r : Run} (o : Nat) (h : AfterRun n r es) :
    InRun n r (Event.stop r.construct o :: es) :=
  .intro [] o h

theorem InRun.report {r : Run} (p : Place) (c : Char) (h : InRun n r es) :
    InRun n r (report p c ++ es) := by
  obtain ⟨errors, o, h⟩ := h
  unfold DotProperties.report
  split
  · exact .intro (⟨c, p.offset, p.position⟩ :: errors) o h
  · exact .intro errors o h

theorem InValue.stop (o : Nat) (h : InDocument n es) :
    InValue n (Event.stop .value o :: Event.stop .property o :: es) :=
  .intro o .nil h

theorem InValue.literal (o : Nat) (h : InRun n .literal es) :
    InValue n (start .literal o :: es) := by
  obtain ⟨errors, o', h⟩ := h
  obtain ⟨o'', hfs, hes⟩ := h
  simpa [Run.construct] using InValue.intro o'' (.literal (.intro (o := o) errors o') hfs) hes

theorem InValue.expression (o : Nat) (h : InRun n .expression es) :
    InValue n (start .expression o :: es) := by
  obtain ⟨errors, o', h⟩ := h
  obtain ⟨o'', hfs, hes⟩ := h
  simpa [Run.construct] using InValue.intro o'' (.expression (.intro (o := o) errors o') hfs) hes

theorem InDocument.stop : InDocument n [Event.stop .document n] :=
  .intro .nil

theorem InDocument.blankLine (o : Nat) (h : InDocument n es) :
    InDocument n (Event.blankLine o :: es) := by
  obtain ⟨h⟩ := h
  exact .intro (.blankLine o h)

theorem InDocument.comment (o : Nat) (h : InComment n es) :
    InDocument n (start .comment o :: es) := by
  obtain ⟨o', ⟨h⟩⟩ := h
  exact .intro (.comment o o' h)

theorem InDocument.append {p : List Event} (hp : IsProperty p) (h : InDocument n es) :
    InDocument n (p ++ es) := by
  obtain ⟨h⟩ := h
  rw [← List.append_assoc]
  exact .intro (.property hp h)

/-- An open key makes a property of what comes behind it. -/
theorem InDocument.property (o : Nat) (h : InRun n .key es) :
    InDocument n (start .property o :: start .key o :: es) := by
  obtain ⟨errors, o', h⟩ := h
  have hk : IsLeaf .key o (start .key o :: (errors.map invalid ++ [Event.stop .key o'])) :=
    .intro errors o'
  obtain ⟨⟨p, h⟩⟩ | ⟨a, ⟨⟨p, h⟩⟩ | ⟨v, ⟨p, hfs, h⟩⟩⟩ := h
  · simpa [Run.construct] using h.append (.bare p hk)
  · simpa [Run.construct] using h.append (.assigned a p hk)
  · simpa [Run.construct] using h.append (.valued a hk (.intro v hfs))

/-! ## Reading keeps the account -/

namespace Mode

/-- The end of what is open, in front of more items. -/
theorem completes_close (m : Mode) (o : Nat) (h : InDocument n es) :
    Completes n m (m.close o ++ es) := by
  have hrun : ∀ r : Run, InRun n r ((run r).close o ++ es) := by
    intro r
    cases r with
    | key => exact .stop (r := .key) o (AfterKey.bare (.stop o h))
    | literal => exact .stop (r := .literal) o (InValue.stop o h)
    | expression => exact .stop (r := .expression) o (InValue.stop o h)
  cases m with
  | start => exact h
  | lineStart q | afterReturn q | indent q =>
    cases q with
    | some r => exact hrun r
    | none => exact h
  | run r | escape r => exact hrun r
  | afterKey | afterAssign => exact .bare (.stop o h)
  | skipped | between | comment => exact .stop o h
  | dollar => exact hrun .expression

variable {m m' : Mode} {p : Place} {c : Char} {es' : List Event}

theorem EndsLine.completes {o : Nat} {outcome : List Event × Option Run}
    (h : EndsLine o m outcome) (hes : InPending n outcome.2 es) :
    Completes n m (outcome.1 ++ es) := by
  cases h with
  | continued r => exact hes
  | value => exact .value o (completes_close between o hes)
  | blank =>
    rw [List.append_assoc]
    exact completes_close m o (.blankLine o hes)
  | closed => exact completes_close m o hes

theorem Turns.completes (h : Turns p c m es m') (hes : Completes n m' es') :
    Completes n m (es ++ es') := by
  cases h with
  | start | lineStart | afterReturn | resume => exact hes
  | property => exact .property p.offset hes
  | key => exact .stop (r := .key) p.offset hes
  | skip => exact .bare hes
  | value => exact .value p.offset hes
  | literal => exact .literal p.offset hes
  | dollar => exact .stop (r := .expression) p.offset hes

theorem Takes.completes (h : Takes p c m es m') (hes : Completes n m' es') :
    Completes n m (es ++ es') := by
  cases h with
  | feed | mark | indent | backslash | opening | beforeAssign | behindAssign | skipped
  | inComment => exact hes
  | lineEnd _ _ hend =>
    rw [apply_nextLine (Completes n) rfl] at hes
    exact hend.completes hes
  | comment q =>
    rw [List.append_assoc]
    exact completes_close (.indent q) p.offset (.comment p.offset hes)
  | escaped | part => exact .report p c hes
  | literal => exact .stop (r := .literal) p.offset (InValue.expression p.offset hes)
  | dollar => exact .expression p.offset hes
  | closing => exact .stop (r := .expression) (p.offset + 1) hes
  | assign => exact .assign p.offset hes

/-- The events of a character, in front of a rest that the mode behind it allows, are a rest
that the mode before it allows. -/
theorem Reads.completes (h : Reads p c m es m') (hes : Completes n m' es') :
    Completes n m (es ++ es') := by
  induction h with
  | take h => exact h.completes hes
  | turn h _ ih =>
    rw [List.append_assoc]
    exact h.completes (ih hes)

theorem completes_onTextEnd (m : Mode) (o : Nat) (h : InDocument n es) :
    Completes n m (m.onTextEnd o ++ es) := by
  obtain hend | ⟨-, hend⟩ := m.onTextEnd_cases <;> rw [hend]
  · exact completes_close m o h
  · rw [List.append_assoc]
    exact completes_close m o (.blankLine o h)

end Mode

end Rest

/-! ## Scans -/

namespace Scanner

theorem results_steps (s : Scanner) (c : Char) :
    Step.results (s.steps c) = (s.mode.read s.place c).1 := by
  unfold steps
  dsimp only
  split_ifs <;> simp

theorem results_scan_nil (s : Scanner) : Step.results (s.scan []) =
    s.mode.onTextEnd s.place.offset ++ [Event.stop .document s.place.offset] := by
  simp only [scan, finish, Step.results_map_yield]

theorem results_scan_cons (s : Scanner) (c : Char) (t : Text) : Step.results (s.scan (c :: t)) =
    (s.mode.read s.place c).1 ++ Step.results ((s.next c).scan t) := by
  rw [scan, Step.results_append, results_steps]

@[simp] theorem next_offset (s : Scanner) (c : Char) :
    (s.next c).place.offset = s.place.offset + 1 := rfl

/-- A scan gives a rest that its mode allows. -/
theorem completes_scan (s : Scanner) (t : Text) :
    Completes (s.place.offset + t.length) s.mode (Step.results (s.scan t)) := by
  induction t generalizing s with
  | nil =>
    rw [results_scan_nil]
    exact s.mode.completes_onTextEnd _ .stop
  | cons c t ih =>
    have hlen : s.place.offset + (c :: t).length = (s.next c).place.offset + t.length := by
      simp only [next_offset, List.length_cons]
      omega
    rw [results_scan_cons, hlen]
    exact (s.mode.reads_read s.place c).completes (ih (s.next c))

end Scanner

/-- The events of a text are those of a document of its length. -/
theorem Event.isDocument_ofText (t : Text) : IsDocument t.length (ofText t) := by
  have h := Scanner.initial.completes_scan t
  rw [show Scanner.initial.place.offset = 0 from rfl, Nat.zero_add] at h
  rw [ofText, scan, Step.results_yield_cons]
  generalize Step.results (Scanner.initial.scan t) = es at h ⊢
  obtain ⟨h⟩ : InDocument t.length es := h
  exact .intro h

end DotProperties
