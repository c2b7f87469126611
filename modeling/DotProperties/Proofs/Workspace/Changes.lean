import DotProperties.Proofs.Text.Positions
import DotProperties.Proofs.Workspace.Basic

/-!
# Changes to a text

A change with a range selects a stretch of the text, by the positions at its ends in either order,
and puts another text in its place; a change without a range replaces all of the text
(`Change.Turns`). A list of changes is applied in order, so the positions of a change are those of
the text that the changes before it left (`Change.Folds`), where a line may have been split or a
terminator completed. Here the stretch is given by the texts around it, and no offset is computed.

A buffer takes a list of changes if and only if both ends of each range are positions of the text
at that point (`Change.Fit`), and then it is the buffer of the text that the changes lead to. If one
of them does not fit, the open document keeps its text and its version (`Buffer.applyChanges_folds`).
-/

namespace DotProperties

namespace Text

/-- The text has the line of the position, and the line is long enough. -/
def Has (t : Text) (p : Position) : Prop :=
  ∃ line, t.contents[p.line]? = some line ∧ p.character ≤ line.length

/-- The offset has the position, and the position is one that can be asked for. -/
def Stands (t : Text) (p : Position) (o : Nat) : Prop := t.Has p ∧ t.positionAt? o = some p

/-- The range has the text `old` between its ends, which come in either order, `u` before them and
`v` behind them. -/
inductive Selects (r : Range) (u old v : Text) : Prop
  | forward : Stands (u ++ (old ++ v)) r.start u.length →
      Stands (u ++ (old ++ v)) r.stop (u.length + old.length) → Selects r u old v
  | reversed : Stands (u ++ (old ++ v)) r.stop u.length →
      Stands (u ++ (old ++ v)) r.start (u.length + old.length) → Selects r u old v

variable {t : Text} {p : Position} {o : Nat}

theorem offsetAt_eq_ok_iff : t.offsetAt p = .ok o ↔ t.Stands p o := by
  obtain ⟨hbeyond, hoffset⟩ | ⟨line, hline, ⟨hlong, hoffset⟩ | ⟨hfits, o', hoffset, -, hposition⟩⟩ :=
    t.offsetAt_cases p
  · have hnone : t.contents[p.line]? = none :=
      List.getElem?_eq_none (t.length_contents ▸ hbeyond)
    rw [hoffset, Stands, Has, hnone]
    simp
  · rw [hoffset, Stands, Has, hline]
    simp [Nat.not_le.mpr hlong]
  · have hhas : t.Has p := ⟨line, hline, hfits⟩
    rw [hoffset]
    constructor
    · rintro ⟨⟩
      exact ⟨hhas, hposition⟩
    · exact fun h => congrArg Except.ok (positionAt?_inj hposition h.2)

/-- A position that the text has stands somewhere. -/
theorem Has.exists_stands (h : t.Has p) : ∃ o, t.Stands p o := by
  obtain ⟨line, hline, hfits⟩ := h
  obtain ⟨hbeyond, -⟩ | ⟨line', hline', ⟨hlong, -⟩ | ⟨-, o, hoffset, -⟩⟩ := t.offsetAt_cases p
  · have hlt := (List.getElem?_eq_some_iff.mp hline).1
    rw [length_contents] at hlt
    exact absurd hbeyond (Nat.not_le.mpr hlt)
  · obtain rfl := Option.some.inj (hline.symm.trans hline')
    exact absurd hfits (Nat.not_le.mpr hlong)
  · exact ⟨o, offsetAt_eq_ok_iff.mp hoffset⟩

theorem spanOf_eq_ok_iff {r : Range} {i j : Nat} :
    t.spanOf r = .ok ⟨i, j⟩ ↔ t.Stands r.start i ∧ t.Stands r.stop j := by
  simp only [spanOf, ← offsetAt_eq_ok_iff]
  rcases t.offsetAt r.start with e | i'
  · simp [bind, Except.bind]
  · rcases t.offsetAt r.stop with e | j'
    · simp [bind, Except.bind]
    · simp [bind, Except.bind, pure, Except.pure]

end Text

namespace Change

open Text

/-- The change makes one text of another. -/
inductive Turns : Change → Text → Text → Prop
  | whole (t new : Text) : Turns ⟨none, new⟩ t new
  | splice {r : Range} {u old v : Text} (new : Text) : Selects r u old v →
      Turns ⟨some r, new⟩ (u ++ (old ++ v)) (u ++ (new ++ v))

/-- The changes, one after the other, make one text of another. -/
inductive Folds : List Change → Text → Text → Prop
  | nil (t : Text) : Folds [] t t
  | cons {c : Change} {cs : List Change} {t u t' : Text} : Turns c t u → Folds cs u t' →
      Folds (c :: cs) t t'

/-- Both ends of each range are positions of the text that the changes before it leave. -/
def Fit (cs : List Change) (t : Text) : Prop :=
  ∀ before c behind r u, cs = before ++ c :: behind → c.range = some r → Folds before t u →
    u.Has r.start ∧ u.Has r.stop

variable {c : Change} {cs : List Change} {t t' : Text}

theorem apply_eq_ok_iff : c.apply t = .ok t' ↔ c.Turns t t' := by
  constructor
  · intro h
    rcases c with ⟨_ | r, new⟩
    · obtain rfl := Except.ok.inj h
      exact .whole t new
    · rcases hspan : t.spanOf r with e | ⟨i, j⟩
      · simp [apply, hspan, bind, Except.bind] at h
      · obtain ⟨hstart, hstop⟩ := spanOf_eq_ok_iff.mp hspan
        obtain rfl : t.splice (Span.sorted ⟨i, j⟩) new = t' := by
          simpa [apply, hspan, bind, Except.bind, pure, Except.pure] using h
        rcases Nat.le_total i j with hij | hji
        · obtain ⟨u, old, v, rfl, rfl, rfl⟩ := exists_split hij (le_length_of_walk hstop.2)
          rw [Span.sorted, Nat.min_eq_left hij, Nat.max_eq_right hij, splice_stretch]
          exact .splice new (.forward hstart hstop)
        · obtain ⟨u, old, v, rfl, rfl, rfl⟩ := exists_split hji (le_length_of_walk hstart.2)
          rw [Span.sorted, Nat.min_eq_right hji, Nat.max_eq_left hji, splice_stretch]
          exact .splice new (.reversed hstop hstart)
  · rintro (_ | ⟨new, ⟨hstart, hstop⟩ | ⟨hstop, hstart⟩⟩)
    · rfl
    · simp [apply, spanOf_eq_ok_iff.mpr ⟨hstart, hstop⟩, bind, Except.bind, pure, Except.pure,
        Span.sorted, splice_stretch]
    · simp [apply, spanOf_eq_ok_iff.mpr ⟨hstart, hstop⟩, bind, Except.bind, pure, Except.pure,
        Span.sorted, splice_stretch]

/-- A change is carried out if and only if both ends of its range are positions of the text. -/
theorem exists_turns_iff :
    (∃ u, c.Turns t u) ↔ ∀ r, c.range = some r → t.Has r.start ∧ t.Has r.stop := by
  constructor
  · rintro ⟨_, _ | ⟨new, ⟨hstart, hstop⟩ | ⟨hstop, hstart⟩⟩⟩ r hr
    · exact nomatch hr
    · obtain rfl := Option.some.inj hr
      exact ⟨hstart.1, hstop.1⟩
    · obtain rfl := Option.some.inj hr
      exact ⟨hstart.1, hstop.1⟩
  · intro h
    rcases c with ⟨_ | r, new⟩
    · exact ⟨new, .whole t new⟩
    · obtain ⟨hstart, hstop⟩ := h r rfl
      obtain ⟨i, hi⟩ := hstart.exists_stands
      obtain ⟨j, hj⟩ := hstop.exists_stands
      refine ⟨t.splice (Span.sorted ⟨i, j⟩) new, apply_eq_ok_iff.mp ?_⟩
      simp [apply, spanOf_eq_ok_iff.mpr ⟨hi, hj⟩, bind, Except.bind, pure, Except.pure]

theorem applyAll_eq_ok_iff : applyAll cs t = .ok t' ↔ Folds cs t t' := by
  induction cs generalizing t with
  | nil =>
    constructor
    · intro h
      obtain rfl := Except.ok.inj h
      exact .nil t
    · rintro ⟨⟩
      rfl
  | cons c cs ih =>
    rw [applyAll, List.foldlM_cons]
    constructor
    · intro h
      rcases hu : c.apply t with e | u
      · rw [hu] at h
        exact nomatch h
      · rw [hu] at h
        exact .cons (apply_eq_ok_iff.mp hu) (ih.mp h)
    · rintro (_ | ⟨hturns, hfolds⟩)
      rw [apply_eq_ok_iff.mpr hturns]
      exact ih.mpr hfolds

theorem applyAll_append (cs cs' : List Change) (t : Text) :
    applyAll (cs ++ cs') t = (applyAll cs t).bind (applyAll cs') :=
  List.foldlM_append

theorem Folds.unique {u : Text} (h : Folds cs t t') (h' : Folds cs t u) : t' = u :=
  Except.ok.inj ((applyAll_eq_ok_iff.mpr h).symm.trans (applyAll_eq_ok_iff.mpr h'))

theorem Folds.append {cs' : List Change} (h : Folds (cs ++ cs') t t') :
    ∃ u, Folds cs t u ∧ Folds cs' u t' := by
  have happly := applyAll_eq_ok_iff.mpr h
  rw [applyAll_append] at happly
  rcases hu : applyAll cs t with e | u
  · rw [hu] at happly
    exact nomatch happly
  · rw [hu] at happly
    exact ⟨u, applyAll_eq_ok_iff.mp hu, applyAll_eq_ok_iff.mp happly⟩

/-- Changes lead somewhere if and only if each of them fits the text that it meets. -/
theorem exists_folds_iff : (∃ u, Folds cs t u) ↔ Fit cs t := by
  constructor
  · rintro ⟨u, hu⟩ before c behind r w rfl hr hw
    obtain ⟨w', hbefore, hrest⟩ := hu.append
    obtain rfl := hbefore.unique hw
    obtain _ | ⟨hturns, -⟩ := hrest
    exact exists_turns_iff.mp ⟨_, hturns⟩ r hr
  · intro h
    induction cs generalizing t with
    | nil => exact ⟨t, .nil t⟩
    | cons c cs ih =>
      obtain ⟨u, hu⟩ := exists_turns_iff.mpr fun r hr => h [] c cs r t rfl hr (.nil t)
      have hrest : Fit cs u := fun before d behind r w hcs hr hw =>
        h (c :: before) d behind r w (congrArg (c :: ·) hcs) hr (.cons hu hw)
      obtain ⟨w, hw⟩ := ih hrest
      exact ⟨w, .cons hu hw⟩

end Change

/-! ## Buffers and open documents -/

namespace Buffer

theorem applyChanges_eq_map (b : Buffer) (cs : List Change) (v : Int) :
    b.applyChanges cs v = (Change.applyAll cs b.text).map fun t => b.setText t v :=
  (Revision.changes cs).apply_eq_map b v

theorem applyChanges_eq_ok_iff {b b' : Buffer} {cs : List Change} {v : Int} :
    b.applyChanges cs v = .ok b' ↔ ∃ t, Change.Folds cs b.text t ∧ b' = ⟨b.uri, t, v⟩ := by
  simp only [applyChanges_eq_map, ← Change.applyAll_eq_ok_iff]
  rcases Change.applyAll cs b.text with e | t
  · simp [Except.map]
  · simp [Except.map, setText, eq_comm]

end Buffer

namespace Entry

/-- An open document keeps its buffer if an edit does not fit the text, and says so. -/
theorem revise_of_error {e : Entry} {r : Revision} {v : Int} {err : LocationError}
    (h : r.apply e.buffer v = .error err) :
    (e.revise v r).2.buffer = e.buffer ∧ ∃ err', (e.revise v r).1 = .error err' := by
  rcases Int.lt_or_le e.published v with hlt | hle
  · rw [revise, publish_of_lt hlt]
    obtain ⟨-, heq⟩ | ⟨-, b, hb, -⟩ | ⟨-, err', -, heq⟩ :=
      commit_cases { e with published := v } v r
    · simp only [heq]
      exact ⟨trivial, _, rfl⟩
    · exact nomatch h.symm.trans hb
    · simp only [heq]
      exact ⟨by split_ifs <;> rfl, _, rfl⟩
  · rw [revise, publish_of_le hle]
    exact ⟨rfl, _, rfl⟩

end Entry

/-- Changes are taken all or none.

* They are taken if and only if both ends of each range are positions of the text at that point.
* The buffer is then the one that the text the changes lead to would be opened with, under the new
  version, so that it answers all questions alike.
* If they are not taken, an open document keeps its text and its version.
* Taking some changes and then others is taking them in one list. -/
theorem Buffer.applyChanges_folds (b : Buffer) (cs : List Change) (v : Int) :
    ((∃ b', b.applyChanges cs v = .ok b') ↔ Change.Fit cs b.text) ∧
    (∀ b', b.applyChanges cs v = .ok b' ↔
      ∃ t, Change.Folds cs b.text t ∧ b' = ⟨b.uri, t, v⟩) ∧
    (¬Change.Fit cs b.text → ∀ (w : Workspace) (uri : String), w.buffer? uri = some b →
      (w.revise uri v (.changes cs)).2.buffer? uri = some b ∧
      ∃ err, (w.revise uri v (.changes cs)).1 = .error err) ∧
    ∀ before behind v', cs = before ++ behind →
      b.applyChanges cs v = (b.applyChanges before v').bind fun b' => b'.applyChanges behind v := by
  have htaken : (∃ b', b.applyChanges cs v = .ok b') ↔ Change.Fit cs b.text := by
    simp only [applyChanges_eq_ok_iff, ← Change.exists_folds_iff]
    exact ⟨fun ⟨_, t, ht, _⟩ => ⟨t, ht⟩, fun ⟨t, ht⟩ => ⟨_, t, ht, rfl⟩⟩
  refine ⟨htaken, fun b' => applyChanges_eq_ok_iff, fun hunfit w uri hw => ?_, ?_⟩
  · obtain ⟨e, he, rfl⟩ := Option.map_eq_some_iff.mp hw
    rcases happly : e.buffer.applyChanges cs v with err | b'
    · obtain ⟨hbuffer, hanswer⟩ := Entry.revise_of_error (r := .changes cs) happly
      rw [Workspace.revise_of_some he, Workspace.buffer?, Workspace.entry?_insert, if_pos rfl]
      exact ⟨congrArg some hbuffer, hanswer⟩
    · exact (hunfit (htaken.mp ⟨b', happly⟩)).elim
  · rintro before behind v' rfl
    simp only [applyChanges_eq_map, Change.applyAll_append]
    rcases Change.applyAll before b.text with e | t
    · rfl
    · simp only [Except.map, Except.bind]
      rfl

/-- A line feed completes a terminator, so that the next change, with its ends the other way round,
takes in both characters of it. -/
example : Change.applyAll [⟨some ⟨⟨1, 0⟩, ⟨1, 0⟩⟩, ['\n']⟩, ⟨some ⟨⟨1, 0⟩, ⟨0, 1⟩⟩, ['b']⟩]
    ['a', '\r'] = .ok ['a', 'b'] := by decide

end DotProperties
