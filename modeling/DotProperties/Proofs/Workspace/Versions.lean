import DotProperties.Proofs.Workspace.Traffic
import Mathlib.Tactic.ByContra

/-!
# Published versions

When no edit waits, the published version should be that of the buffer : otherwise a parse is
given up at its first poll although nothing is going on, and the version that is told is not
that of the text. It is never ahead of the buffer then (`Traffic.published_le_of_rest`), but
it can be behind. An edit that does not fit the text takes the published version back to that
of the buffer, also below the version of an older edit that still waits; if that one is
carried out after all, the buffer is ahead (`Traffic.exists_behind_at_rest`).

`Traffic.published_eq_iff` says exactly when this happens : some edit was carried out whose
version was ahead of the published one, and nothing as new was published since. It does not
happen if no edit is rejected while an older one waits (`Traffic.published_eq_of_orderly`), as
when edits are carried out in the order of their versions.
-/

namespace DotProperties

namespace Traffic

variable {s s' : Traffic} {a : Report} {as : List Report} {b : Buffer}

/-! ## What a step does to the versions -/

/-- What a step can do to the published version, the version of the buffer and the edits that
wait. -/
inductive Shift (s : Traffic) : Report → Traffic → Prop
  /-- Nothing. -/
  | still {a : Report} {s' : Traffic} (hp : s'.entry.published = s.entry.published)
      (hb : s'.entry.buffer.version = s.entry.buffer.version) (hw : s'.waiting = s.waiting)
      (ha : ∀ edit, a ≠ .published edit ∧ a ≠ .revised edit (.ok ())) : Shift s a s'
  /-- A newer version is published for an edit, which then waits. -/
  | publish {edit : WaitingEdit} {s' : Traffic} (hlt : s.entry.published < edit.version)
      (hp : s'.entry.published = edit.version)
      (hb : s'.entry.buffer.version = s.entry.buffer.version)
      (hw : s'.waiting = s.waiting ++ [edit]) : Shift s (.published edit) s'
  /-- An edit that waits is carried out. -/
  | accept {edit : WaitingEdit} {ws ws' : List WaitingEdit} {s' : Traffic}
      (hw : s.waiting = ws ++ edit :: ws') (hw' : s'.waiting = ws ++ ws')
      (hlt : s.entry.buffer.version < edit.version)
      (hp : s'.entry.published = s.entry.published)
      (hb : s'.entry.buffer.version = edit.version) : Shift s (.revised edit (.ok ())) s'
  /-- An edit that waits is refused, and its version is not the published one or no newer than
  that of the buffer. -/
  | drop {edit : WaitingEdit} {ws ws' : List WaitingEdit} {err : WorkspaceError} {s' : Traffic}
      (hw : s.waiting = ws ++ edit :: ws') (hw' : s'.waiting = ws ++ ws')
      (hold : edit.version ≤ s.entry.buffer.version ∨ s.entry.published ≠ edit.version)
      (hp : s'.entry.published = s.entry.published)
      (hb : s'.entry.buffer.version = s.entry.buffer.version) :
      Shift s (.revised edit (.error err)) s'
  /-- An edit that waits does not fit, and takes the published version back. -/
  | takeBack {edit : WaitingEdit} {ws ws' : List WaitingEdit} {err : LocationError} {s' : Traffic}
      (hw : s.waiting = ws ++ edit :: ws') (hw' : s'.waiting = ws ++ ws')
      (hlt : s.entry.buffer.version < edit.version) (hpub : s.entry.published = edit.version)
      (hp : s'.entry.published = s.entry.buffer.version)
      (hb : s'.entry.buffer.version = s.entry.buffer.version) :
      Shift s (.revised edit (.error (.badLocation err))) s'

theorem Step.shift (h : Step s a s') : Shift s a s' := by
  cases h with
  | publish hpub =>
    obtain ⟨hlt, rfl⟩ := Entry.publish_eq_ok.mp hpub
    exact .publish hlt rfl rfl rfl
  | @commit edit ws ws' hfree hw =>
    obtain ⟨hle, heq⟩ | ⟨hlt, b, hb, heq⟩ | ⟨hlt, err, -, heq⟩ :=
      s.entry.commit_cases edit.version edit.revision
    · rw [heq]
      exact .drop hw rfl (Or.inl hle) rfl rfl
    · rw [heq]
      exact .accept hw rfl hlt rfl (Revision.version_of_apply hb)
    · rw [heq]
      by_cases hpub : s.entry.published = edit.version
      · exact .takeBack hw rfl hlt hpub (by simp [hpub]) (by simp [hpub])
      · exact .drop hw rfl (Or.inr hpub) (by simp [hpub]) (by simp [hpub])
  | refuse | share | lock | emit | pass | giveUp | store | missing | glance | compare | close =>
    exact .still rfl rfl rfl (by simp)

/-- An edit that waits is the one taken out, or it still waits. -/
theorem eq_or_mem_of_mem {edit c : WaitingEdit} {ws ws' : List WaitingEdit}
    (h : c ∈ ws ++ edit :: ws') : c = edit ∨ c ∈ ws ++ ws' := by
  rw [List.mem_append, List.mem_cons] at h
  rcases h with h | h | h
  · exact Or.inr (List.mem_append_left _ h)
  · exact Or.inl h
  · exact Or.inr (List.mem_append_right _ h)

/-! ## Never ahead at rest -/

/-- The published version is no newer than that of the buffer, or it is that of an edit that
waits. -/
def Announced (s : Traffic) : Prop :=
  s.entry.published ≤ s.entry.buffer.version ∨ ∃ c ∈ s.waiting, c.version = s.entry.published

theorem Shift.announced (h : Shift s a s') (hs : s.Announced) : s'.Announced := by
  unfold Announced at hs ⊢
  cases h with
  | still hp hb hw ha => rwa [hp, hb, hw]
  | publish hlt hp hb hw =>
    rw [hp, hw]
    exact Or.inr ⟨_, by simp, rfl⟩
  | accept hw hw' hlt hp hb =>
    rw [hp, hb, hw']
    rw [hw] at hs
    obtain hle | ⟨c, hc, hv⟩ := hs
    · exact Or.inl (by omega)
    · rcases eq_or_mem_of_mem hc with rfl | hc
      · exact Or.inl (by omega)
      · exact Or.inr ⟨c, hc, hv⟩
  | drop hw hw' hold hp hb =>
    rw [hp, hb, hw']
    rw [hw] at hs
    obtain hle | ⟨c, hc, hv⟩ := hs
    · exact Or.inl hle
    · rcases eq_or_mem_of_mem hc with rfl | hc
      · exact Or.inl (by omega)
      · exact Or.inr ⟨c, hc, hv⟩
  | takeBack hw hw' hlt hpub hp hb => exact Or.inl (by omega)

/-- When no edit waits, the published version is not ahead of the buffer. -/
theorem published_le_of_rest (h : Trace Step (opened b) as s) (hrest : s.waiting = []) :
    s.entry.published ≤ s.entry.buffer.version := by
  have hs : s.Announced :=
    h.invariant (fun hstep => hstep.shift.announced) (Or.inl (Int.le_refl b.version))
  obtain hle | ⟨c, hc, -⟩ := hs
  · exact hle
  · simp [hrest] at hc

/-! ## Behind at rest -/

/-- An edit of the version `v` was carried out while the published version was older, and
nothing as new was published since. -/
inductive LandedAhead (b : Buffer) (v : Int) : List Report → Traffic → Prop
  | intro {as as' : List Report} {s s' t : Traffic} {edit : WaitingEdit} (hv : edit.version = v)
      (hbefore : Trace Step (opened b) as s) (hlt : s.entry.published < v)
      (hstep : Step s (.revised edit (.ok ())) s') (hafter : Trace Step s' as' t)
      (hsince : ∀ c, Report.published c ∈ as' → c.version < v) :
      LandedAhead b v (as ++ .revised edit (.ok ()) :: as') t

theorem LandedAhead.snoc {v : Int} (h : LandedAhead b v as s) (hstep : Step s a s')
    (ha : ∀ c, a = .published c → c.version < v) : LandedAhead b v (as ++ [a]) s' := by
  obtain ⟨hv, hbefore, hlt, hland, hafter, hsince⟩ := h
  rw [List.append_assoc, List.cons_append]
  refine .intro hv hbefore hlt hland (hafter.snoc hstep) fun c hc => ?_
  rcases List.mem_append.mp hc with hc | hc
  · exact hsince c hc
  · exact ha c (List.mem_singleton.mp hc).symm

/-- A buffer ahead of the published version got there by an edit that landed ahead. -/
theorem landedAhead_of_lt (h : Trace Step (opened b) as s)
    (hlt : s.entry.published < s.entry.buffer.version) :
    LandedAhead b s.entry.buffer.version as s := by
  induction h with
  | nil => exact absurd hlt (Int.lt_irrefl b.version)
  | @snoc as t u a htrace hstep ih =>
    cases hstep.shift with
    | still hp hb hw ha =>
      rw [hb] at hlt ⊢
      exact (ih (hp ▸ hlt)).snoc hstep fun c hc => absurd hc (ha c).1
    | publish hnew hp hb hw =>
      rw [hb] at hlt ⊢
      refine (ih (by omega)).snoc hstep fun c hc => ?_
      obtain rfl := Report.published.inj hc
      omega
    | accept hw hw' hnew hp hb =>
      rw [hb] at hlt ⊢
      exact .intro rfl htrace (hp ▸ hlt) hstep .nil (by simp)
    | drop hw hw' hold hp hb =>
      rw [hb] at hlt ⊢
      exact (ih (hp ▸ hlt)).snoc hstep fun c hc => nomatch hc
    | takeBack hw hw' hnew hpub hp hb => omega

/-- While nothing as new as `v` is published, a buffer at `v` or newer stays ahead. -/
theorem Shift.behind {v : Int} (h : Shift s a s') (ha : ∀ c, a = .published c → c.version < v)
    (hs : s.entry.published < v ∧ v ≤ s.entry.buffer.version) :
    s'.entry.published < v ∧ v ≤ s'.entry.buffer.version := by
  cases h with
  | still hp hb hw hna => rwa [hp, hb]
  | @publish edit _ hlt hp hb hw =>
    have := ha edit rfl
    omega
  | accept hw hw' hlt hp hb => omega
  | drop hw hw' hold hp hb => rwa [hp, hb]
  | takeBack hw hw' hlt hpub hp hb => omega

theorem LandedAhead.lt {v : Int} (h : LandedAhead b v as s) :
    s.entry.published < s.entry.buffer.version := by
  obtain ⟨hv, -, hlt, hland, hafter, hsince⟩ := h
  have hbehind : s.entry.published < v ∧ v ≤ s.entry.buffer.version := by
    induction hafter with
    | nil =>
      cases hland.shift with
      | still hp hb hw ha => exact absurd rfl (ha _).2
      | accept hw hw' hnew hp hb => omega
    | snoc _ hstep ih =>
      refine hstep.shift.behind (fun c hc => hsince c (by simp [hc])) (ih fun c hc => ?_)
      exact hsince c (List.mem_append_left _ hc)
  omega

/-- An older edit that waits while a newer one is rejected lands ahead of the published
version, which the newer one has taken back. -/
theorem trace_overtaken {older newer : WaitingEdit} {b' : Buffer} {err : LocationError}
    (hlt : b.version < older.version) (hlt' : older.version < newer.version)
    (hold : older.revision.apply b older.version = .ok b')
    (hnew : newer.revision.apply b newer.version = .error err) :
    Trace Step (opened b)
      [.published older, .published newer, .revised newer (.error (.badLocation err)),
        .revised older (.ok ())]
      { entry := ⟨b.version, false, b', none⟩ } := by
  have hreject := @Step.commit { entry := ⟨newer.version, false, b, none⟩, waiting := [older, newer] }
    newer [older] [] rfl rfl
  rw [Entry.commit_of_error (Int.lt_trans hlt hlt') hnew, if_pos rfl] at hreject
  have haccept := @Step.commit { entry := ⟨b.version, false, b, none⟩, waiting := [older] }
    older [] [] rfl rfl
  rw [Entry.commit_of_ok hlt hold] at haccept
  exact .cons (.publish (Entry.publish_of_lt hlt))
    (.cons (.publish (Entry.publish_of_lt hlt')) (.cons hreject (.single haccept)))

/-- When no edit waits, the published version is that of the buffer, unless some edit landed
ahead of it and nothing as new was published since. Then it is older. -/
theorem published_eq_iff (h : Trace Step (opened b) as s) (hrest : s.waiting = []) :
    s.entry.published ≤ s.entry.buffer.version ∧
      (s.entry.published = s.entry.buffer.version ↔ ¬∃ v, LandedAhead b v as s) := by
  have hle := published_le_of_rest h hrest
  refine ⟨hle, fun heq => ?_, fun hnot => ?_⟩
  · rintro ⟨v, hv⟩
    have := hv.lt
    omega
  · by_contra hne
    exact hnot ⟨_, landedAhead_of_lt h (by omega)⟩

/-- Version 3 does not fit the text and takes the published version back to 1, and version 2
is carried out after it. -/
theorem published_eq_iff_overtaken : ∃ (as : List Report) (s : Traffic),
    Trace Step (opened ⟨"a", ['a', '=', '1'], 1⟩) as s ∧ s.waiting = [] ∧
      ∃ v, LandedAhead ⟨"a", ['a', '=', '1'], 1⟩ v as s := by
  have htrace := @trace_overtaken ⟨"a", ['a', '=', '1'], 1⟩ ⟨2, .replace ['a', '=', '2']⟩
    ⟨3, .changes [⟨some ⟨⟨5, 0⟩, ⟨5, 0⟩⟩, ['x']⟩]⟩ _ _ (by decide) (by decide) rfl rfl
  refine ⟨_, _, htrace, rfl, ?_⟩
  by_contra hnot
  exact absurd ((published_eq_iff htrace rfl).2.mpr hnot) (by decide)

/-- No edit waits and no parse is under way, but the buffer is at version 2 and version 1 is
published : every parse would be given up at its first poll. -/
theorem exists_behind_at_rest : ∃ (older newer : WaitingEdit) (s : Traffic),
    older.version = 2 ∧ newer.version = 3 ∧
    Trace Step (opened ⟨"a", ['a', '=', '1'], 1⟩)
      [.published older, .published newer,
        .revised newer (.error (.badLocation (.line 5 1))), .revised older (.ok ())] s ∧
    s.waiting = [] ∧ s.parse = none ∧ s.entry.published = 1 ∧ s.entry.buffer.version = 2 ∧
    s.entry.isOutdated s.entry.buffer.version = true :=
  ⟨⟨2, .replace ['a', '=', '2']⟩, ⟨3, .changes [⟨some ⟨⟨5, 0⟩, ⟨5, 0⟩⟩, ['x']⟩]⟩, _, rfl, rfl,
    trace_overtaken (by decide) (by decide) rfl rfl, rfl, rfl, rfl, rfl, rfl⟩

/-! ## In order -/

/-- A step that rejects no edit while an older one waits. -/
def OrderlyStep (s : Traffic) (a : Report) (s' : Traffic) : Prop :=
  Step s a s' ∧ ∀ edit err, a = .revised edit (.error (.badLocation err)) →
    ∀ c ∈ s.waiting, edit.version ≤ c.version

/-- The buffer is not ahead of the published version, and the edits that wait come in the order
of their versions, none of them ahead of the published one. -/
structure Ordered (s : Traffic) : Prop where
  /-- The buffer is not ahead. -/
  buffer_le : s.entry.buffer.version ≤ s.entry.published
  /-- No edit that waits is ahead. -/
  waiting_le : ∀ c ∈ s.waiting, c.version ≤ s.entry.published
  /-- The edits that wait are in order. -/
  sorted : s.waiting.Pairwise fun c c' => c.version < c'.version

theorem Ordered.of_sublist (hs : s.Ordered) (hw : s'.waiting.Sublist s.waiting)
    (hp : s'.entry.published = s.entry.published)
    (hb : s'.entry.buffer.version ≤ s.entry.published) : s'.Ordered where
  buffer_le := by omega
  waiting_le c hc := by
    rw [hp]
    exact hs.waiting_le c (hw.subset hc)
  sorted := hs.sorted.sublist hw

theorem sublist_taken (edit : WaitingEdit) (ws ws' : List WaitingEdit) :
    (ws ++ ws').Sublist (ws ++ edit :: ws') :=
  (List.Sublist.refl ws).append (List.sublist_cons_self edit ws')

/-- The newest edit that waits, if none is older, waits alone. -/
theorem Ordered.eq_nil (hs : s.Ordered) {edit : WaitingEdit} {ws ws' : List WaitingEdit}
    (hw : s.waiting = ws ++ edit :: ws') (hpub : s.entry.published = edit.version)
    (horder : ∀ c ∈ s.waiting, edit.version ≤ c.version) : ws ++ ws' = [] := by
  have hsorted := hs.sorted
  rw [hw, List.pairwise_append] at hsorted
  obtain ⟨-, hcons, hcross⟩ := hsorted
  refine List.eq_nil_iff_forall_not_mem.mpr fun c hc => ?_
  have hmem : c ∈ s.waiting := hw ▸ (sublist_taken edit ws ws').subset hc
  have hle := hs.waiting_le c hmem
  have hge := horder c hmem
  rcases List.mem_append.mp hc with hc | hc
  · have := hcross c hc edit (by simp)
    omega
  · have := (List.pairwise_cons.mp hcons).1 c hc
    omega

theorem OrderlyStep.ordered (h : OrderlyStep s a s') (hs : s.Ordered) : s'.Ordered := by
  obtain ⟨hstep, horder⟩ := h
  cases hstep.shift with
  | still hp hb hw ha =>
    exact hs.of_sublist (hw ▸ List.Sublist.refl _) hp (hb ▸ hs.buffer_le)
  | @publish edit _ hlt hp hb hw =>
    have hle := hs.buffer_le
    refine ⟨by omega, fun c hc => ?_, ?_⟩
    · rw [hw] at hc
      rw [hp]
      rcases List.mem_append.mp hc with hc | hc
      · exact Int.le_trans (hs.waiting_le c hc) (Int.le_of_lt hlt)
      · exact Int.le_of_eq (congrArg _ (List.mem_singleton.mp hc))
    · rw [hw]
      refine List.pairwise_append.mpr ⟨hs.sorted, by simp, fun c hc c' hc' => ?_⟩
      rw [List.mem_singleton.mp hc']
      exact Int.lt_of_le_of_lt (hs.waiting_le c hc) hlt
  | @accept edit ws ws' _ hw hw' hlt hp hb =>
    refine hs.of_sublist (hw' ▸ hw ▸ sublist_taken edit ws ws') hp ?_
    rw [hb]
    exact hs.waiting_le edit (by simp [hw])
  | @drop edit ws ws' _ _ hw hw' hold hp hb =>
    exact hs.of_sublist (hw' ▸ hw ▸ sublist_taken edit ws ws') hp (hb ▸ hs.buffer_le)
  | @takeBack edit ws ws' err _ hw hw' hlt hpub hp hb =>
    rw [hs.eq_nil hw hpub (horder edit err rfl)] at hw'
    exact ⟨by omega, by simp [hw'], by simp [hw']⟩

/-- If no edit is rejected while an older one waits, the published version is that of the
buffer whenever no edit waits. -/
theorem published_eq_of_orderly (h : Trace OrderlyStep (opened b) as s)
    (hrest : s.waiting = []) : s.entry.published = s.entry.buffer.version := by
  have hordered : s.Ordered :=
    h.invariant OrderlyStep.ordered ⟨Int.le_refl b.version, by simp [opened], by simp [opened]⟩
  have hannounced : s.Announced :=
    h.invariant (fun hstep => hstep.1.shift.announced) (Or.inl (Int.le_refl b.version))
  obtain hle | ⟨c, hc, -⟩ := hannounced
  · exact Int.le_antisymm hle hordered.buffer_le
  · simp [hrest] at hc

end Traffic

end DotProperties
