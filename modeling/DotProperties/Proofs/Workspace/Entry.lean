import DotProperties.Workspace.Entry

/-!
# The two steps of an edit

What `Entry.publish` and `Entry.commit` can do, once and for all. Publishing a newer version
changes nothing else (`Entry.publish_eq_ok`). Carrying out an edit ends in one of three ways
(`Entry.commit_cases`) : its version has become stale and nothing happens; the buffer takes
the edit and the version, and the parsed form is dropped; or the edit does not fit the text,
and the published version goes back to that of the buffer if it is still the edit's own.
-/

namespace DotProperties

namespace Document

@[simp] theorem ofBuffer_buffer (b : Buffer) : (ofBuffer b).buffer = b := rfl

end Document

namespace Revision

/-- The text after an edit. -/
def edit (r : Revision) (t : Text) : Except LocationError Text :=
  match r with
  | replace text => .ok text
  | changes cs => Change.applyAll cs t

/-- An edit changes the text and the version of a buffer only. -/
theorem apply_eq_map (r : Revision) (b : Buffer) (v : Int) :
    r.apply b v = (r.edit b.text).map fun text => b.setText text v := by
  cases r with
  | replace text => rfl
  | changes cs =>
    simp only [apply, edit, Buffer.applyChanges, bind, Except.bind, pure, Except.pure, Except.map]

theorem version_of_apply {r : Revision} {b b' : Buffer} {v : Int} (h : r.apply b v = .ok b') :
    b'.version = v := by
  rw [apply_eq_map] at h
  rcases hedit : r.edit b.text with err | text
  · rw [hedit] at h
    cases h
  · rw [hedit] at h
    obtain rfl := Except.ok.inj h
    rfl

end Revision

namespace Entry

variable {e e' : Entry} {v : Int} {err : WorkspaceError}

theorem publish_eq_ok :
    e.publish v = .ok e' ↔ e.published < v ∧ e' = { e with published := v } := by
  unfold publish
  split
  next h => simp [h, eq_comm]
  next h => simp [h]

theorem publish_eq_error : e.publish v = .error err ↔
    v ≤ e.published ∧ err = .staleVersion e.buffer.uri v e.published := by
  unfold publish
  split
  next h => simp [Int.not_le.mpr h]
  next h => simp [Int.not_lt.mp h, eq_comm]

theorem publish_of_lt (h : e.published < v) : e.publish v = .ok { e with published := v } :=
  publish_eq_ok.mpr ⟨h, rfl⟩

theorem publish_of_le (h : v ≤ e.published) :
    e.publish v = .error (.staleVersion e.buffer.uri v e.published) :=
  publish_eq_error.mpr ⟨h, rfl⟩

theorem commit_of_le (r : Revision) (h : v ≤ e.buffer.version) :
    e.commit v r = (.error (.staleVersion e.buffer.uri v e.buffer.version), e) := by
  simp [commit, h]

theorem commit_of_ok {r : Revision} {b : Buffer} (h : e.buffer.version < v)
    (hr : r.apply e.buffer v = .ok b) :
    e.commit v r = (.ok (), { e with buffer := b, parsed := none }) := by
  simp [commit, Int.not_le.mpr h, hr]

theorem commit_of_error {r : Revision} {err : LocationError} (h : e.buffer.version < v)
    (hr : r.apply e.buffer v = .error err) :
    e.commit v r = (.error (.badLocation err),
      if e.published = v then { e with published := e.buffer.version } else e) := by
  simp [commit, Int.not_le.mpr h, hr]

/-- The three ways in which carrying out an edit can end. -/
theorem commit_cases (e : Entry) (v : Int) (r : Revision) :
    (v ≤ e.buffer.version ∧
      e.commit v r = (.error (.staleVersion e.buffer.uri v e.buffer.version), e)) ∨
    (e.buffer.version < v ∧ ∃ b, r.apply e.buffer v = .ok b ∧
      e.commit v r = (.ok (), { e with buffer := b, parsed := none })) ∨
    (e.buffer.version < v ∧ ∃ err, r.apply e.buffer v = .error err ∧
      e.commit v r = (.error (.badLocation err),
        if e.published = v then { e with published := e.buffer.version } else e)) := by
  rcases Int.lt_or_le e.buffer.version v with hlt | hle
  · cases hr : r.apply e.buffer v with
    | ok b => exact Or.inr (Or.inl ⟨hlt, b, rfl, commit_of_ok hlt hr⟩)
    | error err => exact Or.inr (Or.inr ⟨hlt, err, rfl, commit_of_error hlt hr⟩)
  · exact Or.inl ⟨hle, commit_of_le r hle⟩

theorem commit_closed (e : Entry) (v : Int) (r : Revision) :
    (e.commit v r).2.closed = e.closed := by
  obtain ⟨-, heq⟩ | ⟨-, b, -, heq⟩ | ⟨-, err, -, heq⟩ := e.commit_cases v r
  · rw [heq]
  · rw [heq]
  · rw [heq]
    dsimp only
    split
    · rfl
    · rfl

theorem isOutdated_iff : e.isOutdated v = true ↔ e.closed = true ∨ e.published ≠ v := by
  simp [isOutdated]

theorem existing?_eq_some {p : Parsed} : e.existing? = some p ↔
    e.parsed = some p ∧ p.document.buffer.version = e.published := by
  simp [existing?, Option.filter_eq_some_iff]

end Entry

end DotProperties
