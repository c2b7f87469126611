import DotProperties.Proofs.Workspace.Traffic

/-!
# Replacements that race

Any number of calls replace the whole text of one document, each at a version of its own. A
call first publishes its version, and is refused if that is not newer than the published one.
Otherwise it waits for the lock and is then carried out, unless the buffer is as new already.
`Race` is a document with the calls that have not begun and those that wait, and `Race.Step`
takes any of them one step further, so that its runs are all interleavings.

A text always fits, so no version is ever taken back (`Race.Move`). The call that published
last leads at every moment of a run : it still waits, or its text is held (`Race.led`). When all
calls have returned none waits, so the text of the newest one is held
(`Race.settles_on_newest`).
-/

namespace DotProperties

/-- A call that replaces the text of a document. -/
structure Replacement where
  /-- The version of the new text. -/
  version : Int
  /-- The new text. -/
  text : Text
  deriving DecidableEq

/-- A document and the calls on it that have not returned. -/
structure Race where
  /-- The document. -/
  entry : Entry
  /-- The calls that have not begun. -/
  idle : List Replacement
  /-- The calls whose version is published and that were not carried out yet. -/
  waiting : List Replacement := []

namespace Race

/-- What a step of a race does. -/
inductive Report where
  /-- A call has published its version. -/
  | published (call : Replacement)
  /-- A call has returned. -/
  | returned (call : Replacement) (answer : Except WorkspaceError Unit)

/-- A document that was just opened, and the calls that will be made. -/
def start (b : Buffer) (calls : List Replacement) : Race := ⟨.ofBuffer b, calls, []⟩

/-- All calls have returned. -/
def Settled (s : Race) : Prop := s.idle = [] ∧ s.waiting = []

/-- One of the calls goes one step further. -/
inductive Step : Race → Report → Race → Prop
  /-- A call publishes its version. -/
  | publish {s : Race} {c : Replacement} {cs cs' : List Replacement} {e : Entry}
      (hidle : s.idle = cs ++ c :: cs') (h : s.entry.publish c.version = .ok e) :
      Step s (.published c) ⟨e, cs ++ cs', s.waiting ++ [c]⟩
  /-- A call is refused at once. -/
  | refuse {s : Race} {c : Replacement} {cs cs' : List Replacement} {err : WorkspaceError}
      (hidle : s.idle = cs ++ c :: cs') (h : s.entry.publish c.version = .error err) :
      Step s (.returned c (.error err)) { s with idle := cs ++ cs' }
  /-- A call that waits takes the lock and is carried out. -/
  | commit {s : Race} {c : Replacement} {ws ws' : List Replacement}
      (hwaiting : s.waiting = ws ++ c :: ws') :
      Step s (.returned c (s.entry.commit c.version (.replace c.text)).1)
        ⟨(s.entry.commit c.version (.replace c.text)).2, s.idle, ws ++ ws'⟩

/-! ## What a step does -/

/-- The four things that can happen to a call. -/
inductive Move (s : Race) : Report → Race → Prop
  /-- Its version is newer than the published one. -/
  | publish {c : Replacement} {cs cs' : List Replacement} (hidle : s.idle = cs ++ c :: cs')
      (hlt : s.entry.published < c.version) :
      Move s (.published c)
        ⟨{ s.entry with published := c.version }, cs ++ cs', s.waiting ++ [c]⟩
  /-- Its version is not newer than the published one. -/
  | refuse {c : Replacement} {cs cs' : List Replacement} (hidle : s.idle = cs ++ c :: cs')
      (hle : c.version ≤ s.entry.published) :
      Move s
        (.returned c (.error (.staleVersion s.entry.buffer.uri c.version s.entry.published)))
        { s with idle := cs ++ cs' }
  /-- It has waited, and its version is not newer than the buffer. -/
  | drop {c : Replacement} {ws ws' : List Replacement} (hwaiting : s.waiting = ws ++ c :: ws')
      (hle : c.version ≤ s.entry.buffer.version) :
      Move s
        (.returned c
          (.error (.staleVersion s.entry.buffer.uri c.version s.entry.buffer.version)))
        { s with waiting := ws ++ ws' }
  /-- It has waited, and its text is put in. -/
  | land {c : Replacement} {ws ws' : List Replacement} (hwaiting : s.waiting = ws ++ c :: ws')
      (hlt : s.entry.buffer.version < c.version) :
      Move s (.returned c (.ok ()))
        ⟨{ s.entry with buffer := ⟨s.entry.buffer.uri, c.text, c.version⟩, parsed := none },
          s.idle, ws ++ ws'⟩

variable {b : Buffer} {calls : List Replacement} {as : List Report} {a : Report} {s s' : Race}

theorem Step.move (h : Step s a s') : Move s a s' := by
  cases h with
  | publish hidle h =>
    obtain ⟨hlt, rfl⟩ := Entry.publish_eq_ok.mp h
    exact .publish hidle hlt
  | refuse hidle h =>
    obtain ⟨hle, rfl⟩ := Entry.publish_eq_error.mp h
    exact .refuse hidle hle
  | @commit c ws ws' hwaiting =>
    rcases Int.lt_or_le s.entry.buffer.version c.version with hlt | hle
    · rw [Entry.commit_of_ok hlt rfl]
      exact .land hwaiting hlt
    · rw [Entry.commit_of_le _ hle]
      exact .drop hwaiting hle

/-! ## What has happened -/

/-- The calls that have published their version, in order. -/
def announced (as : List Report) : List Replacement :=
  as.filterMap fun
    | .published c => some c
    | .returned _ _ => none

/-- The calls that have returned, in order. -/
def returned (as : List Report) : List Replacement :=
  as.filterMap fun
    | .published _ => none
    | .returned c _ => some c

/-- The calls whose text was put in, in order. -/
def landed (as : List Report) : List Replacement :=
  as.filterMap fun
    | .returned c (.ok ()) => some c
    | _ => none

section History

variable (as : List Report) (c : Replacement) (answer : Except WorkspaceError Unit)

@[simp] theorem announced_published : announced (as ++ [.published c]) = announced as ++ [c] := by
  simp [announced]

@[simp] theorem announced_returned : announced (as ++ [.returned c answer]) = announced as := by
  simp [announced]

@[simp] theorem returned_published : returned (as ++ [.published c]) = returned as := by
  simp [returned]

@[simp] theorem returned_returned :
    returned (as ++ [.returned c answer]) = returned as ++ [c] := by
  simp [returned]

@[simp] theorem landed_published : landed (as ++ [.published c]) = landed as := by
  simp [landed]

@[simp] theorem landed_ok : landed (as ++ [.returned c (.ok ())]) = landed as ++ [c] := by
  simp [landed]

@[simp] theorem landed_error (err : WorkspaceError) :
    landed (as ++ [.returned c (.error err)]) = landed as := by
  simp [landed]

end History

/-- Every call has returned, waits or has not begun. -/
theorem perm_calls (h : Trace Step (start b calls) as s) :
    (returned as ++ (s.waiting ++ s.idle)).Perm calls := by
  induction h with
  | nil => exact .refl calls
  | snoc _ hstep ih =>
    refine List.Perm.trans (List.perm_iff_count.mpr fun x => ?_) ih
    cases hstep.move with
    | publish hidle hlt =>
      simp only [hidle, returned_published, List.count_append, List.count_cons, List.count_nil]
      omega
    | refuse hidle hle =>
      simp only [hidle, returned_returned, List.count_append, List.count_cons, List.count_nil]
      omega
    | drop hwaiting hle =>
      simp only [hwaiting, returned_returned, List.count_append, List.count_cons, List.count_nil]
      omega
    | land hwaiting hlt =>
      simp only [hwaiting, returned_returned, List.count_append, List.count_cons, List.count_nil]
      omega

/-- No version was published that is newer than the published one. -/
theorem announced_le (h : Trace Step (start b calls) as s) :
    ∀ c ∈ announced as, c.version ≤ s.entry.published := by
  induction h with
  | nil => simp [announced]
  | snoc _ hstep ih =>
    cases hstep.move with
    | @publish c _ _ hidle hlt =>
      rw [announced_published]
      intro c' hc'
      rcases List.mem_append.mp hc' with hc' | hc'
      · exact Int.le_of_lt (Int.lt_of_le_of_lt (ih c' hc') hlt)
      · exact Int.le_of_eq (congrArg _ (List.mem_singleton.mp hc'))
    | refuse | drop | land =>
      rw [announced_returned]
      exact ih

/-- Versions are published in order. -/
theorem announced_sorted (h : Trace Step (start b calls) as s) :
    (announced as).Pairwise fun c c' => c.version < c'.version := by
  induction h with
  | nil => exact .nil
  | snoc htrace hstep ih =>
    cases hstep.move with
    | publish hidle hlt =>
      rw [announced_published]
      refine List.pairwise_append.mpr ⟨ih, by simp, fun c' hc' c'' hc'' => ?_⟩
      rw [List.mem_singleton.mp hc'']
      exact Int.lt_of_le_of_lt (announced_le htrace c' hc') hlt
    | refuse | drop | land =>
      rw [announced_returned]
      exact ih

/-- The calls that wait have published their version. -/
theorem mem_announced_of_waiting (h : Trace Step (start b calls) as s) :
    ∀ c ∈ s.waiting, c ∈ announced as := by
  induction h with
  | nil => simp [start]
  | snoc _ hstep ih =>
    cases hstep.move with
    | publish hidle hlt =>
      rw [announced_published]
      intro c' hc'
      rcases List.mem_append.mp hc' with hc' | hc'
      · exact List.mem_append_left _ (ih c' hc')
      · exact List.mem_append_right _ hc'
    | refuse hidle hle =>
      rw [announced_returned]
      exact ih
    | @drop c ws ws' hwaiting _ | @land c ws ws' hwaiting _ =>
      rw [announced_returned]
      refine fun c' hc' => ih c' ?_
      rw [hwaiting]
      exact ((List.Sublist.refl ws).append (List.sublist_cons_self c ws')).subset hc'

/-- A call that has published its version is the last one to do so, or older. -/
theorem eq_or_lt_last (h : Trace Step (start b calls) as s) {c last : Replacement}
    (hc : c ∈ announced as) (hlast : (announced as).getLast? = some last) :
    c = last ∨ c.version < last.version := by
  obtain ⟨cs, hcs⟩ := List.getLast?_eq_some_iff.mp hlast
  have hsorted := announced_sorted h
  rw [hcs] at hc hsorted
  rcases List.mem_append.mp hc with hc | hc
  · exact Or.inr ((List.pairwise_append.mp hsorted).2.2 c hc last (by simp))
  · exact Or.inl (List.mem_singleton.mp hc)

theorem waiting_le (h : Trace Step (start b calls) as s) {c : Replacement}
    {ws ws' : List Replacement} (hwaiting : s.waiting = ws ++ c :: ws') :
    c.version ≤ s.entry.published :=
  announced_le h c (mem_announced_of_waiting h c (by simp [hwaiting]))

/-- No call that has returned is newer than the published version. -/
theorem returned_le (h : Trace Step (start b calls) as s) :
    ∀ c ∈ returned as, c.version ≤ s.entry.published := by
  induction h with
  | nil => simp [returned]
  | snoc htrace hstep ih =>
    cases hstep.move with
    | publish hidle hlt =>
      rw [returned_published]
      exact fun c hc => Int.le_of_lt (Int.lt_of_le_of_lt (ih c hc) hlt)
    | refuse hidle hle =>
      rw [returned_returned]
      simpa [or_imp, forall_and] using ⟨ih, hle⟩
    | drop hwaiting _ | land hwaiting _ =>
      have hle := waiting_le htrace hwaiting
      rw [returned_returned]
      simpa [or_imp, forall_and] using ⟨ih, hle⟩

/-- The buffer is not ahead of the published version. -/
theorem buffer_le (h : Trace Step (start b calls) as s) :
    s.entry.buffer.version ≤ s.entry.published := by
  induction h with
  | nil => exact Int.le_refl b.version
  | snoc htrace hstep ih =>
    cases hstep.move with
    | publish hidle hlt => exact Int.le_of_lt (Int.lt_of_le_of_lt ih hlt)
    | refuse | drop => exact ih
    | land hwaiting hlt => exact waiting_le htrace hwaiting

/-- No text that was put in is newer than the one that is held. -/
theorem landed_le (h : Trace Step (start b calls) as s) :
    ∀ c ∈ landed as, c.version ≤ s.entry.buffer.version := by
  induction h with
  | nil => simp [landed]
  | snoc _ hstep ih =>
    cases hstep.move with
    | publish => rwa [landed_published]
    | refuse | drop => rwa [landed_error]
    | @land c ws ws' hwaiting hlt =>
      rw [landed_ok]
      intro c' hc'
      rcases List.mem_append.mp hc' with hc' | hc'
      · exact Int.le_of_lt (Int.lt_of_le_of_lt (ih c' hc') hlt)
      · exact Int.le_of_eq (congrArg _ (List.mem_singleton.mp hc'))

/-- Texts are put in in the order of their versions. -/
theorem landed_sorted (h : Trace Step (start b calls) as s) :
    (landed as).Pairwise fun c c' => c.version < c'.version := by
  induction h with
  | nil => exact .nil
  | snoc htrace hstep ih =>
    cases hstep.move with
    | publish => rwa [landed_published]
    | refuse | drop => rwa [landed_error]
    | land hwaiting hlt =>
      rw [landed_ok]
      refine List.pairwise_append.mpr ⟨ih, by simp, fun c' hc' c'' hc'' => ?_⟩
      rw [List.mem_singleton.mp hc'']
      exact Int.lt_of_le_of_lt (landed_le htrace c' hc') hlt

/-! ## Who leads -/

theorem uri_eq (h : Trace Step (start b calls) as s) : s.entry.buffer.uri = b.uri := by
  induction h with
  | nil => rfl
  | snoc _ hstep ih =>
    cases hstep.move with
    | publish | refuse | drop | land => exact ih

/-- The published version is that of the call `c`, which waits and is newer than the buffer, or
whose text is held. -/
def Leads (b : Buffer) (c : Replacement) (s : Race) : Prop :=
  s.entry.published = c.version ∧
    (c ∈ s.waiting ∧ s.entry.buffer.version < c.version ∨
      s.entry.buffer = ⟨b.uri, c.text, c.version⟩)

/-- A call still waits when another one was taken out. -/
theorem mem_of_ne {c last : Replacement} {ws ws' : List Replacement}
    (h : last ∈ ws ++ c :: ws') (hne : c ≠ last) : last ∈ ws ++ ws' := by
  rw [List.mem_append, List.mem_cons] at h
  rcases h with h | rfl | h
  · exact List.mem_append_left _ h
  · exact absurd rfl hne
  · exact List.mem_append_right _ h

/-- Before a version is published the document is as it was opened, and then the call that
published last leads. -/
theorem led (h : Trace Step (start b calls) as s) :
    ((announced as).getLast? = none → s.entry = .ofBuffer b) ∧
      ∀ last, (announced as).getLast? = some last → Leads b last s := by
  induction h with
  | nil => exact ⟨fun _ => rfl, by simp [announced]⟩
  | @snoc as t u a htrace hstep ih =>
    cases hstep.move with
    | @publish c cs cs' hidle hlt =>
      have hle := buffer_le htrace
      rw [announced_published, List.getLast?_concat]
      refine ⟨nofun, ?_⟩
      rintro _ ⟨⟩
      exact ⟨rfl, Or.inl ⟨by simp, Int.lt_of_le_of_lt hle hlt⟩⟩
    | refuse hidle hle =>
      rw [announced_returned]
      exact ih
    | @drop c ws ws' hwaiting hle =>
      rw [announced_returned]
      refine ⟨ih.1, fun last hlast => ?_⟩
      obtain ⟨hpub, ⟨hmem, hlt⟩ | hheld⟩ := ih.2 last hlast
      · have hne : c ≠ last := by
          rintro rfl
          omega
        exact ⟨hpub, Or.inl ⟨mem_of_ne (hwaiting ▸ hmem) hne, hlt⟩⟩
      · exact ⟨hpub, Or.inr hheld⟩
    | @land c ws ws' hwaiting hlt =>
      rw [announced_returned]
      have hc : c ∈ announced as := mem_announced_of_waiting htrace c (by simp [hwaiting])
      refine ⟨fun hnone => ?_, fun last hlast => ?_⟩
      · rw [List.getLast?_eq_none_iff.mp hnone] at hc
        cases hc
      · obtain ⟨hpub, hlead⟩ := ih.2 last hlast
        rcases eq_or_lt_last htrace hc hlast with rfl | hold
        · exact ⟨hpub, Or.inr (by rw [uri_eq htrace])⟩
        · obtain ⟨hmem, -⟩ | hheld := hlead
          · have hne : c ≠ last := by
              rintro rfl
              omega
            exact ⟨hpub, Or.inl ⟨mem_of_ne (hwaiting ▸ hmem) hne, hold⟩⟩
          · rw [hheld] at hlt
            dsimp only at hlt
            omega

/-! ## How calls return -/

/-- The call failed because its version is not newer than another one. -/
def IsStale (b : Buffer) (c : Replacement) (answer : Except WorkspaceError Unit) : Prop :=
  ∃ current, c.version ≤ current ∧ answer = .error (.staleVersion b.uri c.version current)

/-- A call is carried out or stale. -/
theorem ok_or_isStale (h : Trace Step (start b calls) as s) {c : Replacement}
    {answer : Except WorkspaceError Unit} (hmem : .returned c answer ∈ as) :
    answer = .ok () ∨ IsStale b c answer := by
  induction h with
  | nil => cases hmem
  | snoc htrace hstep ih =>
    rcases List.mem_append.mp hmem with hmem | hmem
    · exact ih hmem
    · rw [List.mem_singleton] at hmem
      subst hmem
      cases hstep.move with
      | refuse hidle hle => exact Or.inr ⟨_, hle, by rw [uri_eq htrace]⟩
      | drop hwaiting hle => exact Or.inr ⟨_, hle, by rw [uri_eq htrace]⟩
      | land hwaiting hlt => exact Or.inl rfl

/-- The calls can always be run to their end. -/
theorem exists_settled : ∀ (idle waiting : List Replacement) (e : Entry),
    ∃ as s', Trace Step ⟨e, idle, waiting⟩ as s' ∧ s'.Settled
  | [], [], e => ⟨[], _, .nil, rfl, rfl⟩
  | [], c :: ws, e => by
    obtain ⟨as, s', htrace, hs'⟩ :=
      exists_settled [] ws (e.commit c.version (.replace c.text)).2
    exact ⟨_, s', .cons (@Step.commit _ _ [] _ rfl) htrace, hs'⟩
  | c :: cs, ws, e => by
    cases hpub : e.publish c.version with
    | ok e' =>
      obtain ⟨as, s', htrace, hs'⟩ := exists_settled cs (ws ++ [c]) e'
      exact ⟨_, s', .cons (@Step.publish _ _ [] _ _ rfl hpub) htrace, hs'⟩
    | error err =>
      obtain ⟨as, s', htrace, hs'⟩ := exists_settled cs ws e
      exact ⟨_, s', .cons (@Step.refuse _ _ [] _ _ rfl hpub) htrace, hs'⟩
termination_by idle waiting => (idle.length, waiting.length)

/-- Some call has published its version once all have returned, if one of them is newer than
the document that was opened. -/
theorem announced_ne_nil (h : Trace Step (start b calls) as s) (hs : s.Settled)
    (hnewer : ∃ c ∈ calls, b.version < c.version) : (announced as).getLast? ≠ none := by
  intro hnone
  obtain ⟨c, hc, hlt⟩ := hnewer
  have hperm := perm_calls h
  rw [hs.1, hs.2, List.append_nil, List.append_nil] at hperm
  have hle := returned_le h c (hperm.mem_iff.mpr hc)
  rw [(led h).1 hnone] at hle
  exact absurd hlt (Int.not_lt.mpr hle)

/-- Calls that replace the text of a document opened at some version, one of them at a newer
one, in any interleaving of their steps :

* texts are put in in the order of their versions;
* a call whose text is not put in is told that its version is stale;
* the calls can go on until all of them have returned;
* once each of them has, the document holds the text of the call that published the newest
  version, and both its versions are that one. -/
theorem settles_on_newest (hnewer : ∃ c ∈ calls, b.version < c.version)
    (h : Trace Step (start b calls) as s) :
    (landed as).Pairwise (fun c c' => c.version < c'.version) ∧
    (∀ c answer, .returned c answer ∈ as → answer = .ok () ∨ IsStale b c answer) ∧
    (∃ as' s', Trace Step s as' s' ∧ s'.Settled) ∧
    (s.Settled → (returned as).Perm calls ∧ ∃ c ∈ announced as,
      (∀ c' ∈ announced as, c' = c ∨ c'.version < c.version) ∧
      s.entry.buffer = ⟨b.uri, c.text, c.version⟩ ∧ s.entry.published = c.version) := by
  refine ⟨landed_sorted h, fun c answer => ok_or_isStale h, exists_settled _ _ _, fun hs => ?_⟩
  have hperm := perm_calls h
  rw [hs.1, hs.2, List.append_nil, List.append_nil] at hperm
  obtain ⟨last, hlast⟩ := Option.ne_none_iff_exists'.mp (announced_ne_nil h hs hnewer)
  obtain ⟨hpub, ⟨hmem, -⟩ | hheld⟩ := (led h).2 last hlast
  · rw [hs.2] at hmem
    cases hmem
  · exact ⟨hperm, last, List.mem_of_getLast? hlast, fun c' hc' => eq_or_lt_last h hc' hlast,
      hheld, hpub⟩

/-- Version 3 is carried out before version 2, which was published first, and version 1 comes
too late. -/
theorem settles_on_newest_overtaken :
    ∃ (as : List Report) (s : Race),
      Trace Step (start ⟨"a", [], 1⟩ [⟨2, ['b']⟩, ⟨1, ['a']⟩, ⟨3, ['c']⟩]) as s ∧ s.Settled ∧
      landed as = [⟨3, ['c']⟩] ∧ announced as = [⟨2, ['b']⟩, ⟨3, ['c']⟩] ∧
      ∃ c ∈ announced as, (∀ c' ∈ announced as, c' = c ∨ c'.version < c.version) ∧
        s.entry.buffer = ⟨"a", c.text, c.version⟩ ∧ s.entry.published = c.version := by
  have htrace : Trace Step (start ⟨"a", [], 1⟩ [⟨2, ['b']⟩, ⟨1, ['a']⟩, ⟨3, ['c']⟩]) _ _ :=
    Trace.single (@Step.publish _ _ [] _ _ rfl rfl)
      |>.snoc (@Step.publish _ _ [⟨1, ['a']⟩] _ _ rfl rfl)
      |>.snoc (@Step.refuse _ _ [] _ _ rfl rfl)
      |>.snoc (@Step.commit _ _ [⟨2, ['b']⟩] _ rfl)
      |>.snoc (@Step.commit _ _ [] _ rfl)
  have hend := settles_on_newest ⟨⟨2, ['b']⟩, by decide, by decide⟩ htrace
  exact ⟨_, _, htrace, ⟨rfl, rfl⟩, rfl, rfl, (hend.2.2.2 ⟨rfl, rfl⟩).2⟩

end Race

end DotProperties
