import DotProperties.Proofs.Document.Tree
import Mathlib.Data.List.Chain

/-!
# Which mark stands behind which

Two marks in a row say more than the grammar does. A fragment stops behind the offset at which
it starts, no literal starts where another one has just stopped, and a property starts behind the
end of the item before it (`Event.Precedes`). This holds of all marks of a text
(`Event.isChain_ofText`).

A scan in the middle of a text owes marks that go on in that way, and the first of them depends
on its mode : an open run stops next, and where nothing is open the next item lies ahead
(`Mode.Ahead`). Reading a character keeps that (`Mode.Reads.owes`).
-/

namespace DotProperties

open Event

/-- The second of two marks may stand right behind the first. -/
def Event.Precedes : Event → Event → Prop
  | start .literal o, stop .literal o' => o < o'
  | start .expression o, stop .expression o' => o < o'
  | stop .literal _, start .literal _ => False
  | stop .property o, start .property o' => o < o'
  | stop .comment o, start .property o' => o < o'
  | _, _ => True

/-! ## What is still owed -/

/-- The first of the marks from the offset `o` on is the end of the run. -/
def Run.Ahead (r : Run) (o : Nat) : List Event → Prop
  | stop c o' :: _ => c = r.construct ∧ o ≤ o'
  | _ => False

/-- The first of the marks from the offset `o` on is the end of the run that is open, or stands
there or further on. -/
def pendingAhead (o : Nat) : Option Run → List Event → Prop
  | some r, es => r.Ahead o es
  | none, es => ∀ e ∈ es.head?, o ≤ e.offset

/-- What the mode says of the first of the marks from the offset `o` on. -/
def Mode.Ahead (o : Nat) : Mode → List Event → Prop
  | .start => pendingAhead o none
  | .lineStart pending | .afterReturn pending | .indent pending => pendingAhead o pending
  | .run r | .escape r => r.Ahead o
  | .dollar => Run.expression.Ahead o
  | .afterKey | .skipped | .afterAssign | .between | .comment => fun _ => True

/-- The marks `es` may be those of the rest of a text from the offset `o` on. -/
structure Mode.Owes (o : Nat) (m : Mode) (es : List Event) : Prop where
  /-- They stand in a row as marks may. -/
  chain : es.IsChain Precedes
  /-- The first of them is one that the mode allows. -/
  ahead : m.Ahead o es

section Owes

variable {o : Nat} {es : List Event}

theorem Run.Ahead.of_succ {r : Run} (h : r.Ahead (o + 1) es) : r.Ahead o es := by
  match es, h with
  | stop c o' :: _, ⟨hc, ho⟩ => exact ⟨hc, by omega⟩

theorem pendingAhead.of_succ {pending : Option Run} (h : pendingAhead (o + 1) pending es) :
    pendingAhead o pending es := by
  cases pending with
  | some r => exact Run.Ahead.of_succ h
  | none => exact fun e he => Nat.le_of_succ_le (h e he)

/-- Marks that nothing is said of may follow a mark that asks for nothing. -/
theorem isChain_cons_of_free {e : Event} (hfree : ∀ e', Precedes e e') (h : es.IsChain Precedes) :
    (e :: es).IsChain Precedes :=
  List.isChain_cons.mpr ⟨fun e' _ => hfree e', h⟩

/-- A fragment that is open stops behind its start. -/
theorem isChain_start_cons {r : Run} (h : r.Ahead (o + 1) es) (hes : es.IsChain Precedes) :
    (start r.construct o :: es).IsChain Precedes := by
  match es, h with
  | stop c o' :: es, ⟨hc, ho⟩ =>
    subst hc
    refine List.isChain_cons_cons.mpr ⟨?_, hes⟩
    cases r with
    | key => trivial
    | literal | expression => exact ho

/-- The marks `es` may stand behind an item that stops before `o`. -/
structure AfterItem (o : Nat) (es : List Event) : Prop where
  /-- They may stand behind a property. -/
  property : (stop .property o :: es).IsChain Precedes
  /-- They may stand behind a comment. -/
  comment : (stop .comment o :: es).IsChain Precedes
  /-- They lie ahead. -/
  ahead : ∀ e ∈ es.head?, o ≤ e.offset

theorem AfterItem.chain (h : AfterItem o es) : es.IsChain Precedes :=
  (List.isChain_cons.mp h.property).2

/-- Marks of the next line stand behind any item of this one. -/
theorem AfterItem.of_ahead (hes : es.IsChain Precedes) (h : pendingAhead (o + 1) none es) :
    AfterItem o es := by
  have hlt : ∀ e ∈ es.head?, o < e.offset := h
  refine ⟨List.isChain_cons.mpr ⟨fun e he => ?_, hes⟩,
    List.isChain_cons.mpr ⟨fun e he => ?_, hes⟩, fun e he => Nat.le_of_lt (hlt e he)⟩
  all_goals
    have := hlt e he
    rcases e with ⟨_ | _, _⟩ | _ | _ | _ | _ <;> first | exact this | trivial

theorem AfterItem.document (o : Nat) : AfterItem o [stop .document o] where
  property := by simp [Precedes]
  comment := by simp [Precedes]
  ahead := by simp [offset]

/-- A comment may start where another item has just stopped. -/
theorem AfterItem.start_comment (hes : es.IsChain Precedes) :
    AfterItem o (start .comment o :: es) := by
  have hchain : (start .comment o :: es).IsChain Precedes :=
    isChain_cons_of_free (fun _ => trivial) hes
  exact ⟨List.isChain_cons_cons.mpr ⟨trivial, hchain⟩, List.isChain_cons_cons.mpr ⟨trivial, hchain⟩,
    by simp [offset]⟩

end Owes

/-! ## Reading keeps the account -/

namespace Mode

variable {o : Nat} {m m' : Mode} {p : Place} {c : Char} {es es' : List Event}

/-- The end of what is open in front of the next item. -/
theorem owes_close (m : Mode) (h : AfterItem o es) : Owes o m (m.close o ++ es) := by
  have hvalue : (stop .value o :: stop .property o :: es).IsChain Precedes :=
    isChain_cons_of_free (fun _ => trivial) h.property
  have hrun : ∀ r : Run, Owes o (run r) ((run r).close o ++ es) := by
    intro r
    cases r with
    | key => exact ⟨isChain_cons_of_free (fun _ => trivial) h.property, rfl, Nat.le_refl o⟩
    | literal | expression =>
      exact ⟨List.isChain_cons_cons.mpr ⟨trivial, hvalue⟩, rfl, Nat.le_refl o⟩
  cases m with
  | start => exact ⟨h.chain, h.ahead⟩
  | lineStart q | afterReturn q | indent q =>
    cases q with
    | some r => exact ⟨(hrun r).chain, (hrun r).ahead⟩
    | none => exact ⟨h.chain, h.ahead⟩
  | run r | escape r => exact ⟨(hrun r).chain, (hrun r).ahead⟩
  | dollar => exact ⟨(hrun .expression).chain, (hrun .expression).ahead⟩
  | afterKey | skipped | afterAssign => exact ⟨h.property, trivial⟩
  | between => exact ⟨hvalue, trivial⟩
  | comment => exact ⟨h.comment, trivial⟩

theorem EndsLine.owes {outcome : List Event × Option Run} (h : EndsLine o m outcome)
    (hchain : es.IsChain Precedes) (hahead : pendingAhead (o + 1) outcome.2 es) :
    Owes o m (marksOf outcome.1 ++ es) := by
  cases h with
  | continued r => exact ⟨hchain, pendingAhead.of_succ hahead⟩
  | value =>
    have hclose := owes_close between (.of_ahead hchain hahead)
    exact ⟨isChain_cons_of_free (fun _ => trivial) hclose.chain, trivial⟩
  | blank =>
    rw [marksOf_append, marksOf_close, marksOf_blankLine, List.append_nil]
    exact owes_close m (.of_ahead hchain hahead)
  | closed =>
    rw [marksOf_close]
    exact owes_close m (.of_ahead hchain hahead)

theorem Takes.owes (h : Takes p c m es m') (hes : Owes (p.offset + 1) m' es') :
    Owes p.offset m (marksOf es ++ es') := by
  obtain ⟨hchain, hahead⟩ := hes
  cases h with
  | feed | indent => exact ⟨hchain, pendingAhead.of_succ hahead⟩
  | mark =>
    have hnone : pendingAhead (p.offset + 1) none es' := hahead
    exact ⟨hchain, hnone.of_succ⟩
  | lineEnd _ _ hend =>
    rw [apply_nextLine (Ahead _) rfl] at hahead
    exact hend.owes hchain hahead
  | comment q =>
    rw [marksOf_append, marksOf_close, List.append_assoc]
    exact owes_close (.indent q) (.start_comment hchain)
  | backslash | opening => exact ⟨hchain, Run.Ahead.of_succ hahead⟩
  | escaped | part =>
    rw [marksOf_report]
    exact ⟨hchain, Run.Ahead.of_succ hahead⟩
  | literal =>
    have hstart := isChain_start_cons (r := .expression) hahead hchain
    exact ⟨List.isChain_cons_cons.mpr ⟨trivial, hstart⟩, rfl, Nat.le_refl _⟩
  | dollar => exact ⟨isChain_start_cons (r := .expression) hahead hchain, trivial⟩
  | closing => exact ⟨isChain_cons_of_free (fun _ => trivial) hchain, rfl, Nat.le_succ _⟩
  | assign => exact ⟨isChain_cons_of_free (fun _ => trivial) hchain, trivial⟩
  | beforeAssign | behindAssign | skipped | inComment => exact ⟨hchain, trivial⟩

/-- A literal takes the character that it starts at, so that it stops behind it. -/
theorem Reads.ahead_literal (h : Reads p c (run .literal) es m') (hc : isTerminator c = false)
    (hdollar : c ≠ '$') (hes : m'.Ahead (p.offset + 1) es') :
    Run.literal.Ahead (p.offset + 1) (marksOf es ++ es') := by
  cases h with
  | take h =>
    cases h with
    | lineEnd hterminator => exact Bool.noConfusion (hc.symm.trans hterminator)
    | literal heq => exact (hdollar heq).elim
    | backslash => exact hes
    | part =>
      rw [marksOf_report]
      exact hes
  | turn h => cases h

/-- Marks that the mode behind a character owes, with those of the character put in front, are
marks that the mode before it owes. -/
theorem Reads.owes (h : Reads p c m es m') (hes : Owes (p.offset + 1) m' es') :
    Owes p.offset m (marksOf es ++ es') := by
  induction h with
  | take h => exact h.owes hes
  | turn h hrest ih =>
    obtain ⟨hchain, hahead⟩ := ih hes
    rw [marksOf_append, List.append_assoc]
    cases h with
    | start | lineStart | afterReturn | resume => exact ⟨hchain, hahead⟩
    | property =>
      have hkey : (Event.start .key p.offset :: _).IsChain Precedes :=
        isChain_cons_of_free (fun _ => trivial) hchain
      exact ⟨isChain_cons_of_free (fun _ => trivial) hkey,
        by simp [Ahead, pendingAhead, marksOf, isMark, offset]⟩
    | key | dollar =>
      exact ⟨isChain_cons_of_free (fun _ => trivial) hchain, rfl, Nat.le_refl _⟩
    | skip => exact ⟨hchain, trivial⟩
    | value => exact ⟨isChain_cons_of_free (fun _ => trivial) hchain, trivial⟩
    | literal hc hdollar =>
      have hliteral := hrest.ahead_literal hc hdollar hes.ahead
      exact ⟨isChain_start_cons (r := .literal) hliteral hchain, trivial⟩

theorem owes_onTextEnd (m : Mode) (o : Nat) :
    Owes o m (marksOf (m.onTextEnd o) ++ [stop .document o]) := by
  have hclose := owes_close m (AfterItem.document o)
  obtain hend | ⟨-, hend⟩ := m.onTextEnd_cases <;> rw [hend]
  · rwa [marksOf_close]
  · rwa [marksOf_append, marksOf_close, marksOf_blankLine, List.append_nil]

end Mode

/-- A scan gives marks that its mode owes. -/
theorem Scanner.owes_scan (s : Scanner) (t : Text) :
    s.mode.Owes s.place.offset (marksOf (Step.results (s.scan t))) := by
  induction t generalizing s with
  | nil =>
    rw [results_scan_nil, marksOf_append]
    exact s.mode.owes_onTextEnd s.place.offset
  | cons c t ih =>
    rw [results_scan_cons, marksOf_append]
    exact (s.mode.reads_read s.place c).owes (ih (s.next c))

/-- The marks of a text stand in a row as marks may. -/
theorem Event.isChain_ofText (t : Text) : (marksOf (ofText t)).IsChain Precedes :=
  isChain_cons_of_free (fun _ => trivial) (Scanner.initial.owes_scan t).chain

end DotProperties
