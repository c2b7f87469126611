import DotProperties.Document.Tree
import DotProperties.Proofs.Event.Grammar

/-!
# Layouts

A `Layout` is a document with all its characters : comments, properties, and the characters
between them. A property is its key and its `Ending`, which is the rest of the line or a
delimiter with spacing around it and a value; a value is a row of `Piece`s. The texts of the
parts, one behind the other, are the text of the document, and the place of each part is what
stands before it (`layOut`). So no character is lost, and none belongs to two parts.

Every text has a layout, and its constructs start and stop where those of the layout do
(`Layout.exists_of_text`). A scan in the middle of a text still owes a part of a layout for the
rest of the text, which depends on its mode (`Layout.Rest`). Reading a character puts it in
front of such a part (`Mode.Reads.rest`).
-/

namespace DotProperties

/-! ## Texts with their parts -/

/-- A text of spaces and tabs. -/
structure Spacing where
  /-- The text. -/
  text : Text
  /-- It has nothing else. -/
  blank : ∀ c ∈ text, isSpacing c = true

/-- A fragment of a value with its text. -/
structure Piece where
  /-- What it is. -/
  kind : FragmentKind
  /-- Its text. -/
  text : Text

/-- What stands behind the key of a property. -/
inductive Ending where
  /-- The rest of a line that has no delimiter. -/
  | skipped (rest : Text)
  /-- A delimiter with spacing around it, and a value, unless the text ends before it. -/
  | assigned (before : Spacing) (delimiter : Char) (behind : Spacing)
      (value : Option (List Piece))

/-- A stretch of a document. -/
inductive Block where
  /-- A character that is part of nothing. -/
  | gap (c : Char) (h : isSpacing c = true ∨ isTerminator c = true)
  /-- A comment. -/
  | comment (text : Text)
  /-- A property. -/
  | property (key : Text) (ending : Ending)

/-- The stretches of a document, one behind the other. -/
abbrev Layout := List Block

/-- What `f` gives for each of a list of things whose texts stand one behind the other, the
first of them at the offset `o`. -/
def layOut {α β : Type} (text : α → Text) (f : Nat → α → List β) (o : Nat) : List α → List β
  | [] => []
  | x :: xs => f o x ++ layOut text f (o + (text x).length) xs

theorem layOut_append {α β : Type} (text : α → Text) (f : Nat → α → List β) (o : Nat)
    (xs ys : List α) :
    layOut text f o (xs ++ ys) =
      layOut text f o xs ++ layOut text f (o + (xs.flatMap text).length) ys := by
  induction xs generalizing o with
  | nil => rfl
  | cons x xs ih =>
    rw [List.cons_append, layOut, layOut, ih, List.append_assoc, List.flatMap_cons,
      List.length_append, Nat.add_assoc]

theorem mem_layOut {α β : Type} {text : α → Text} {f : Nat → α → List β} {y : β} {xs : List α} :
    ∀ {o : Nat}, y ∈ layOut text f o xs → ∃ ys x zs, xs = ys ++ x :: zs ∧
      y ∈ f (o + (ys.flatMap text).length) x := by
  induction xs with
  | nil => simp [layOut]
  | cons x xs ih =>
    intro o hy
    rcases List.mem_append.mp hy with hy | hy
    · exact ⟨[], x, xs, rfl, hy⟩
    · obtain ⟨ys, x', zs, rfl, hy⟩ := ih hy
      refine ⟨x :: ys, x', zs, rfl, ?_⟩
      rwa [List.flatMap_cons, List.length_append, ← Nat.add_assoc]

/-- The text of a row of pieces. -/
def piecesText (ps : List Piece) : Text := ps.flatMap Piece.text

/-- The text of a value, if there is one. -/
def valueText (value : Option (List Piece)) : Text := (value.map piecesText).getD []

/-- The text of an ending. -/
def Ending.text : Ending → Text
  | skipped rest => rest
  | assigned before delimiter behind value =>
    before.text ++ delimiter :: (behind.text ++ valueText value)

/-- The text of a stretch. -/
def Block.text : Block → Text
  | gap c _ => [c]
  | comment text => text
  | property key ending => key ++ ending.text

/-- The text of a layout. -/
def Layout.text (l : Layout) : Text := l.flatMap Block.text

/-! ## Where the parts start and stop -/

/-- The construct of a fragment. -/
def FragmentKind.construct : FragmentKind → Construct
  | literal => .literal
  | expression => .expression

open Event

/-- Where a piece starts and stops. -/
def Piece.marks (o : Nat) (p : Piece) : List Event :=
  [start p.kind.construct o, stop p.kind.construct (o + p.text.length)]

/-- Where the pieces of a row start and stop. -/
def piecesMarks (o : Nat) (ps : List Piece) : List Event := layOut Piece.text Piece.marks o ps

/-- Where a value starts and stops, if there is one, and the property around it stops. -/
def valueMarks (o : Nat) : Option (List Piece) → List Event
  | none => [stop .property o]
  | some ps =>
    let o' := o + (piecesText ps).length
    start .value o :: (piecesMarks o ps ++ [stop .value o', stop .property o'])

/-- The marks of what stands behind a key, up to the end of the property. -/
def Ending.marks (o : Nat) : Ending → List Event
  | skipped rest => [stop .property (o + rest.length)]
  | assigned before _ behind value =>
    assign (o + before.text.length) ::
      valueMarks (o + before.text.length + 1 + behind.text.length) value

/-- The marks of a stretch. -/
def Block.marks (o : Nat) : Block → List Event
  | gap _ _ => []
  | comment text => [start .comment o, stop .comment (o + text.length)]
  | property key ending =>
    start .property o :: start .key o :: stop .key (o + key.length) ::
      ending.marks (o + key.length)

/-- The marks of a layout. -/
def Layout.marks (o : Nat) (l : Layout) : List Event := layOut Block.text Block.marks o l

/-- The event says where a construct starts or stops, or where a delimiter stands. -/
def Event.isMark : Event → Bool
  | blankLine _ | invalid _ => false
  | _ => true

/-- The events that say where constructs start and stop. -/
def marksOf (es : List Event) : List Event := es.filter isMark

@[simp] theorem marksOf_append (es es' : List Event) :
    marksOf (es ++ es') = marksOf es ++ marksOf es' := List.filter_append es es'

@[simp] theorem marksOf_blankLine (o : Nat) : marksOf [blankLine o] = [] := rfl

@[simp] theorem marksOf_report (p : Place) (c : Char) : marksOf (report p c) = [] := by
  unfold report
  split <;> rfl

@[simp] theorem marksOf_close (m : Mode) (o : Nat) : marksOf (m.close o) = m.close o := by
  refine List.filter_eq_self.mpr fun e he => ?_
  obtain ⟨k, rfl⟩ := Mode.exists_of_mem_close he
  rfl

/-! ## What is still owed

The marks `es` of the rest `t` of a text that goes on at the offset `o`, by what is open
there. -/

namespace Layout

/-- Nothing but the document is open. -/
inductive OfDocument (o : Nat) : Text → List Event → Prop
  | intro (l : Layout) : OfDocument o l.text (l.marks o ++ [stop .document (o + l.text.length)])

/-- A comment, or a property that gets no more parts, is open. -/
inductive OfLine (c : Construct) (o : Nat) : Text → List Event → Prop
  | intro (w : Text) {t : Text} {es : List Event} : OfDocument (o + w.length) t es →
      OfLine c o (w ++ t) (stop c (o + w.length) :: es)

/-- A value is open, between two pieces of it. -/
inductive OfValue (o : Nat) : Text → List Event → Prop
  | intro (ps : List Piece) {t : Text} {es : List Event} :
      OfDocument (o + (piecesText ps).length) t es →
        OfValue o (piecesText ps ++ t) (piecesMarks o ps ++
          stop .value (o + (piecesText ps).length) ::
          stop .property (o + (piecesText ps).length) :: es)

/-- A property is open whose delimiter was read. -/
inductive OfAssigned (o : Nat) : Text → List Event → Prop
  | intro (behind : Spacing) (value : Option (List Piece)) {t : Text} {es : List Event} :
      OfDocument (o + behind.text.length + (valueText value).length) t es →
        OfAssigned o (behind.text ++ (valueText value ++ t))
          (valueMarks (o + behind.text.length) value ++ es)

/-- A property is open whose key was read. -/
inductive OfEnding (o : Nat) : Text → List Event → Prop
  | intro (e : Ending) {t : Text} {es : List Event} : OfDocument (o + e.text.length) t es →
      OfEnding o (e.text ++ t) (e.marks o ++ es)

/-- What a run is part of is open, and the run was read. -/
def AfterRun : Run → Nat → Text → List Event → Prop
  | .key => OfEnding
  | .literal | .expression => OfValue

/-- A run is open. -/
inductive OfRun (r : Run) (o : Nat) : Text → List Event → Prop
  | intro (w : Text) {t : Text} {es : List Event} : AfterRun r (o + w.length) t es →
      OfRun r o (w ++ t) (stop r.construct (o + w.length) :: es)

/-- A run is open, or else nothing but the document. -/
def OfPending : Option Run → Nat → Text → List Event → Prop
  | some r => OfRun r
  | none => OfDocument

/-- Nothing was read. -/
def OfText (o : Nat) (t : Text) (es : List Event) : Prop :=
  OfDocument o t es ∨ ∃ t', t = '\uFEFF' :: t' ∧ OfDocument (o + 1) t' es

/-- The rests of a text and of its marks that a mode allows. -/
def Rest : Mode → Nat → Text → List Event → Prop
  | .start => OfText
  | .lineStart pending | .afterReturn pending | .indent pending => OfPending pending
  | .run r | .escape r => OfRun r
  | .afterKey => OfEnding
  | .skipped => OfLine .property
  | .afterAssign => OfAssigned
  | .between => OfValue
  | .dollar => OfRun .expression
  | .comment => OfLine .comment

section Rest

variable {o : Nat} {t : Text} {es : List Event} {c : Char}

theorem OfDocument.stop (o : Nat) : OfDocument o [] [Event.stop .document o] := .intro []

theorem OfDocument.gap (hc : isSpacing c = true ∨ isTerminator c = true)
    (h : OfDocument (o + 1) t es) : OfDocument o (c :: t) es := by
  obtain ⟨l⟩ := h
  simpa [Layout.text, Layout.marks, layOut, Block.text, Block.marks, Nat.add_assoc,
    Nat.add_comm 1] using OfDocument.intro (o := o) (.gap c hc :: l)

theorem OfDocument.comment (h : OfLine .comment o t es) :
    OfDocument o t (start .comment o :: es) := by
  obtain ⟨w, ⟨l⟩⟩ := h
  simpa [Layout.text, Layout.marks, layOut, Block.text, Block.marks, Nat.add_assoc]
    using OfDocument.intro (o := o) (.comment w :: l)

theorem OfDocument.property (h : OfRun .key o t es) :
    OfDocument o t (start .property o :: start .key o :: es) := by
  obtain ⟨w, ⟨e, ⟨l⟩⟩⟩ := h
  simpa [Layout.text, Layout.marks, layOut, Block.text, Block.marks, Run.construct,
    Nat.add_assoc] using OfDocument.intro (o := o) (.property w e :: l)

theorem OfLine.stop {d : Construct} (h : OfDocument o t es) :
    OfLine d o t (Event.stop d o :: es) := .intro [] h

/-- A character more in front of a text. -/
theorem add_length_cons (o : Nat) (c : Char) (w : Text) :
    o + 1 + w.length = o + (c :: w).length := by
  rw [List.length_cons]
  omega

theorem OfLine.cons {d : Construct} (c : Char) (h : OfLine d (o + 1) t es) :
    OfLine d o (c :: t) es := by
  obtain ⟨w, h⟩ := h
  rw [add_length_cons o c w] at h ⊢
  exact .intro (c :: w) h

theorem OfRun.stop {r : Run} (h : AfterRun r o t es) :
    OfRun r o t (Event.stop r.construct o :: es) := .intro [] h

theorem OfRun.cons {r : Run} (c : Char) (h : OfRun r (o + 1) t es) : OfRun r o (c :: t) es := by
  obtain ⟨w, h⟩ := h
  rw [add_length_cons o c w] at h ⊢
  exact .intro (c :: w) h

theorem OfValue.stop (h : OfDocument o t es) :
    OfValue o t (Event.stop .value o :: Event.stop .property o :: es) := .intro [] h

/-- A fragment in front of the rest of a value. -/
theorem OfValue.piece (kind : FragmentKind) {w : Text} (h : OfValue (o + w.length) t es) :
    OfValue o (w ++ t) (start kind.construct o ::
      Event.stop kind.construct (o + w.length) :: es) := by
  obtain ⟨ps, h⟩ := h
  have hlen : o + w.length + (piecesText ps).length =
      o + (piecesText (⟨kind, w⟩ :: ps)).length := by
    simp only [piecesText, List.flatMap_cons, List.length_append]
    omega
  rw [hlen] at h ⊢
  simpa [piecesText, piecesMarks, layOut, Piece.marks] using OfValue.intro (⟨kind, w⟩ :: ps) h

theorem OfValue.literal (h : OfRun .literal o t es) : OfValue o t (start .literal o :: es) := by
  obtain ⟨w, h⟩ := h
  exact .piece .literal h

theorem OfValue.expression (h : OfRun .expression o t es) :
    OfValue o t (start .expression o :: es) := by
  obtain ⟨w, h⟩ := h
  exact .piece .expression h

theorem OfAssigned.stop (h : OfDocument o t es) :
    OfAssigned o t (Event.stop .property o :: es) := .intro ⟨[], by simp⟩ none h

theorem OfAssigned.value (h : OfValue o t es) : OfAssigned o t (start .value o :: es) := by
  obtain ⟨ps, h⟩ := h
  simpa [valueText, valueMarks] using OfAssigned.intro ⟨[], by simp⟩ (some ps) h

theorem OfAssigned.cons (hc : isSpacing c = true) (h : OfAssigned (o + 1) t es) :
    OfAssigned o (c :: t) es := by
  obtain ⟨⟨w, hw⟩, value, h⟩ := h
  rw [add_length_cons o c w] at h ⊢
  exact .intro ⟨c :: w, by simpa [hc] using hw⟩ value h

theorem OfEnding.skipped (h : OfLine .property o t es) : OfEnding o t es := by
  obtain ⟨w, h⟩ := h
  exact .intro (.skipped w) h

theorem OfEnding.assigned (d : Char) (h : OfAssigned (o + 1) t es) :
    OfEnding o (d :: t) (assign o :: es) := by
  obtain ⟨behind, value, h⟩ := h
  have hlen : o + 1 + behind.text.length + (valueText value).length =
      o + (Ending.assigned ⟨[], by simp⟩ d behind value).text.length := by
    simp only [Ending.text, List.nil_append, List.length_cons, List.length_append]
    omega
  rw [hlen] at h
  simpa [Ending.text, Ending.marks] using
    OfEnding.intro (.assigned ⟨[], by simp⟩ d behind value) h

theorem OfEnding.cons (hc : isSpacing c = true) (h : OfEnding (o + 1) t es) :
    OfEnding o (c :: t) es := by
  obtain ⟨e, h⟩ := h
  cases e with
  | skipped w => exact .skipped (.cons c (.intro w h))
  | assigned before d behind value =>
    obtain ⟨w, hw⟩ := before
    have hmarks : (Ending.assigned ⟨w, hw⟩ d behind value).marks (o + 1) =
        (Ending.assigned ⟨c :: w, by simpa [hc] using hw⟩ d behind value).marks o := by
      simp only [Ending.marks, add_length_cons o c w]
    rw [add_length_cons o c] at h
    rw [hmarks]
    exact .intro (.assigned ⟨c :: w, by simpa [hc] using hw⟩ d behind value) h

end Rest

end Layout

/-! ## Reading puts a character in front -/

namespace Mode

open Layout

variable {t : Text} {es : List Event}

/-- The end of what is open, in front of more items. -/
theorem rest_close (m : Mode) {o : Nat} (h : OfDocument o t es) : Rest m o t (m.close o ++ es) := by
  have hrun : ∀ r : Run, OfRun r o t ((run r).close o ++ es) := by
    intro r
    cases r with
    | key => exact .stop (r := .key) (OfEnding.skipped (.stop h))
    | literal => exact .stop (r := .literal) (OfValue.stop h)
    | expression => exact .stop (r := .expression) (OfValue.stop h)
  cases m with
  | start => exact Or.inl h
  | lineStart q | afterReturn q | indent q =>
    cases q with
    | some r => exact hrun r
    | none => exact h
  | run r | escape r => exact hrun r
  | afterKey => exact OfEnding.skipped (.stop h)
  | skipped | comment => exact OfLine.stop h
  | afterAssign => exact OfAssigned.stop h
  | between => exact OfValue.stop h
  | dollar => exact hrun .expression

/-- Spacing and terminators in front of a line go to the run that it goes on with, or to
nothing. -/
theorem ofPending_cons {q : Option Run} {o : Nat} {c : Char}
    (hc : isSpacing c = true ∨ isTerminator c = true) (h : OfPending q (o + 1) t es) :
    OfPending q o (c :: t) es := by
  cases q with
  | some r => exact OfRun.cons c h
  | none => exact OfDocument.gap hc h

variable {m m' : Mode} {p : Place} {c : Char} {es' : List Event}

theorem EndsLine.rest {o : Nat} {outcome : List Event × Option Run} (h : EndsLine o m outcome)
    (hc : isTerminator c = true) (hes : OfPending outcome.2 (o + 1) t es) :
    Rest m o (c :: t) (marksOf outcome.1 ++ es) := by
  have hline := ofPending_cons (Or.inr hc) hes
  cases h with
  | continued r => exact hline
  | value => exact OfAssigned.value (rest_close between hline)
  | blank =>
    rw [marksOf_append, marksOf_close]
    simpa using rest_close m hline
  | closed =>
    rw [marksOf_close]
    exact rest_close m hline

theorem Turns.rest (h : Turns p c m es m') (hes : Rest m' p.offset t es') :
    Rest m p.offset t (marksOf es ++ es') := by
  cases h with
  | start => exact Or.inl hes
  | lineStart | afterReturn | resume => exact hes
  | property => exact OfDocument.property hes
  | key => exact OfRun.stop (r := .key) hes
  | skip => exact OfEnding.skipped hes
  | value => exact OfAssigned.value hes
  | literal => exact OfValue.literal hes
  | dollar => exact OfRun.stop (r := .expression) hes

theorem Takes.rest (h : Takes p c m es m') (hes : Rest m' (p.offset + 1) t es') :
    Rest m p.offset (c :: t) (marksOf es ++ es') := by
  cases h with
  | feed q hc => exact ofPending_cons (Or.inr (by rw [hc]; rfl)) hes
  | lineEnd hc _ hend =>
    rw [apply_nextLine Rest rfl] at hes
    exact hend.rest hc hes
  | mark hc => exact Or.inr ⟨t, by rw [hc], hes⟩
  | indent q hc => exact ofPending_cons (Or.inl hc) hes
  | comment q =>
    rw [marksOf_append, marksOf_close, List.append_assoc]
    exact rest_close (.indent q) (.comment (.cons c hes))
  | backslash | opening => exact OfRun.cons c hes
  | escaped | part =>
    rw [marksOf_report]
    exact OfRun.cons c hes
  | literal => exact OfRun.stop (r := .literal) (OfValue.expression (.cons c hes))
  | dollar => exact OfValue.expression (.cons c hes)
  | closing => exact OfRun.intro (r := .expression) [c] hes
  | assign => exact OfEnding.assigned c hes
  | beforeAssign hc => exact OfEnding.cons hc hes
  | behindAssign hc => exact OfAssigned.cons hc hes
  | skipped | inComment => exact OfLine.cons c hes

/-- A rest that the mode behind a character allows, with the character and its marks put in
front, is one that the mode before it allows. -/
theorem Reads.rest (h : Reads p c m es m') (hes : Rest m' (p.offset + 1) t es') :
    Rest m p.offset (c :: t) (marksOf es ++ es') := by
  induction h with
  | take h => exact h.rest hes
  | turn h _ ih =>
    rw [marksOf_append, List.append_assoc]
    exact h.rest (ih hes)

theorem rest_onTextEnd (m : Mode) (o : Nat) :
    Rest m o [] (marksOf (m.onTextEnd o) ++ [stop .document o]) := by
  have hclose := rest_close m (OfDocument.stop o)
  obtain hend | ⟨-, hend⟩ := m.onTextEnd_cases <;> rw [hend]
  · rwa [marksOf_close]
  · rwa [marksOf_append, marksOf_close, marksOf_blankLine, List.append_nil]

end Mode

namespace Layout

/-- A scan gives the marks of a rest that its mode allows. -/
theorem rest_scan (s : Scanner) (t : Text) :
    Rest s.mode s.place.offset t (marksOf (Step.results (s.scan t))) := by
  induction t generalizing s with
  | nil =>
    rw [Scanner.results_scan_nil, marksOf_append]
    exact s.mode.rest_onTextEnd s.place.offset
  | cons c t ih =>
    rw [Scanner.results_scan_cons, marksOf_append]
    exact (s.mode.reads_read s.place c).rest (ih (s.next c))

/-- Every text has a layout, possibly behind a byte order mark, and its constructs start and
stop where those of the layout do. -/
theorem exists_of_text (t : Text) : ∃ (mark : Text) (l : Layout),
    (mark = [] ∨ mark = ['\uFEFF']) ∧ t = mark ++ l.text ∧
    marksOf (Event.ofText t) =
      start .document 0 :: (l.marks mark.length ++ [stop .document t.length]) := by
  have hrest : OfText 0 t (marksOf (Step.results (Scanner.initial.scan t))) :=
    rest_scan Scanner.initial t
  have hmarks : marksOf (Event.ofText t) =
    start .document 0 :: marksOf (Step.results (Scanner.initial.scan t)) := rfl
  rw [hmarks]
  generalize marksOf (Step.results (Scanner.initial.scan t)) = es at hrest ⊢
  rcases hrest with hrest | ⟨t, rfl, ⟨l⟩⟩
  · obtain ⟨l⟩ := hrest
    exact ⟨[], l, Or.inl rfl, rfl, by simp⟩
  · exact ⟨['\uFEFF'], l, Or.inr rfl, rfl, by simp [Nat.add_comm]⟩

end Layout

end DotProperties
