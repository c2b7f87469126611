import DotProperties.Workspace.Flight
import DotProperties.Proofs.Cancellation
import DotProperties.Proofs.Workspace.Entry

/-!
# Requests that overlap

Requests on one document come from many sides and overlap in every way that its lock allows.
`Traffic` is a document with the requests that are under way : edits whose version is
published and that wait for the lock, a parse that holds the lock, and requests for the
parsed form that is there, which take no lock. `Traffic.Step` says what can happen next and
what is answered :

* an edit publishes its version, or is refused at once;
* an edit that waits is carried out, if the lock is free;
* a request for the parsed form takes the lock and finds it, or starts a parse;
* the parse reports an event, passes a poll, gives up at a poll, or ends and stores its result;
* a request for what is there reads it, and later compares its version;
* the document is closed.

A document that is opened anew under its name is another one, and the requests under way go on
with the old one. `Succession.Step` is about all documents ever opened under one name.

A parsed form that is kept is always that of the text that is held (`Traffic.Current`), after
every step (`Traffic.Step.current`) and so in every run. `Succession.answers_current` draws
the conclusions for what requests are answered.
-/

namespace DotProperties

/-- A run of steps from the state `s`, with what was reported on the way. -/
inductive Trace {σ α : Type} (step : σ → α → σ → Prop) (s : σ) : List α → σ → Prop
  | nil : Trace step s [] s
  | snoc {as : List α} {t u : σ} {a : α} :
      Trace step s as t → step t a u → Trace step s (as ++ [a]) u

namespace Trace

variable {σ α : Type} {step : σ → α → σ → Prop} {s t u : σ} {a : α} {as as' : List α}

/-- What every step preserves holds after every run. -/
theorem invariant {P : σ → Prop} (hstep : ∀ {s a t}, step s a t → P s → P t)
    (h : Trace step s as t) (hs : P s) : P t := by
  induction h with
  | nil => exact hs
  | snoc _ ht ih => exact hstep ht ih

theorem append (h : Trace step s as t) (h' : Trace step t as' u) : Trace step s (as ++ as') u := by
  induction h' with
  | nil => simpa using h
  | snoc _ hstep ih => simpa [List.append_assoc] using ih.snoc hstep

theorem single (h : step s a t) : Trace step s [a] t := snoc nil h

theorem cons (h : step s a t) (h' : Trace step t as u) : Trace step s (a :: as) u :=
  (single h).append h'

end Trace

/-- A parse that holds the lock. -/
structure Parse where
  /-- The buffer when the lock was taken. -/
  buffer : Buffer
  /-- The events reported so far, in order. -/
  events : List Event
  /-- What is still to be done. -/
  rest : List (Step Event)

/-- A request for the parsed form that is there, which has read it and is still to compare
its version. -/
structure Glance where
  /-- What it has read. -/
  parsed : Parsed
  /-- The buffer that the document held when it was read. -/
  buffer : Buffer

/-- A document and the requests on it that are under way. -/
structure Traffic where
  /-- The document. -/
  entry : Entry
  /-- The edits whose version is published and that were not carried out yet. -/
  waiting : List WaitingEdit := []
  /-- The parse that holds the lock. The lock is free if there is none. -/
  parse : Option Parse := none
  /-- The requests for what is there that are still to compare its version. -/
  glances : List Glance := []
  /-- Number of parses that ended with a result. -/
  parses : Nat := 0

/-- What a step reports to the one whose request it serves. -/
inductive Report where
  /-- Nothing. -/
  | silent
  /-- The version of an edit is published. -/
  | published (edit : WaitingEdit)
  /-- The answer to an edit. -/
  | revised (edit : WaitingEdit) (answer : Except WorkspaceError Unit)
  /-- The answer to a request for the parsed form. -/
  | retrieved (answer : Except WorkspaceError Parsed)
  /-- The answer to a request for the parsed form that is there. -/
  | existing (answer : Option Parsed)

namespace Traffic

/-- A document that was just opened. -/
def opened (b : Buffer) : Traffic := { entry := .ofBuffer b }

/-- What can happen next to a document. -/
inductive Step : Traffic → Report → Traffic → Prop
  /-- An edit publishes its version. -/
  | publish {s : Traffic} {edit : WaitingEdit} {e : Entry}
      (h : s.entry.publish edit.version = .ok e) :
      Step s (.published edit) { s with entry := e, waiting := s.waiting ++ [edit] }
  /-- An edit is refused at once. -/
  | refuse {s : Traffic} {edit : WaitingEdit} {err : WorkspaceError}
      (h : s.entry.publish edit.version = .error err) :
      Step s (.revised edit (.error err)) s
  /-- An edit that waits takes the lock and is carried out. -/
  | commit {s : Traffic} {edit : WaitingEdit} {ws ws' : List WaitingEdit}
      (hfree : s.parse = none) (hw : s.waiting = ws ++ edit :: ws') :
      Step s (.revised edit (s.entry.commit edit.version edit.revision).1)
        { s with
          entry := (s.entry.commit edit.version edit.revision).2
          waiting := ws ++ ws' }
  /-- A request takes the lock and finds the parsed form. -/
  | share {s : Traffic} {p : Parsed} (hfree : s.parse = none) (hp : s.entry.parsed = some p) :
      Step s (.retrieved (.ok p)) s
  /-- A request takes the lock and starts a parse. -/
  | lock {s : Traffic} (hfree : s.parse = none) (hp : s.entry.parsed = none) :
      Step s .silent
        { s with parse := some ⟨s.entry.buffer, [], Event.scan s.entry.buffer.text⟩ }
  /-- The parse reports an event. -/
  | emit {s : Traffic} {b : Buffer} {es : List Event} {e : Event}
      {rest : List (DotProperties.Step Event)} (hp : s.parse = some ⟨b, es, .yield e :: rest⟩) :
      Step s .silent { s with parse := some ⟨b, es ++ [e], rest⟩ }
  /-- The parse passes a poll : its result is still wanted. -/
  | pass {s : Traffic} {b : Buffer} {es : List Event} {rest : List (DotProperties.Step Event)}
      (hp : s.parse = some ⟨b, es, .poll :: rest⟩) (hw : s.entry.isOutdated b.version = false) :
      Step s .silent { s with parse := some ⟨b, es, rest⟩ }
  /-- The parse gives up at a poll : it is outdated, or the one who asked has lost interest. -/
  | giveUp {s : Traffic} {b : Buffer} {es : List Event} {rest : List (DotProperties.Step Event)}
      (hp : s.parse = some ⟨b, es, .poll :: rest⟩) :
      Step s (.retrieved (.error .cancelled)) { s with parse := none }
  /-- The parse ends and stores its result. -/
  | store {s : Traffic} {b : Buffer} {es : List Event} {q : Parsed}
      (hp : s.parse = some ⟨b, es, []⟩) (hq : q = ⟨s.parses, .ofEvents b es⟩) :
      Step s (.retrieved (.ok q))
        { s with
          entry := { s.entry with parsed := some q }
          parse := none
          parses := s.parses + 1 }
  /-- A request for what is there finds nothing. -/
  | missing {s : Traffic} (hp : s.entry.parsed = none) : Step s (.existing none) s
  /-- A request for what is there reads it. -/
  | glance {s : Traffic} {p : Parsed} (hp : s.entry.parsed = some p) :
      Step s .silent { s with glances := ⟨p, s.entry.buffer⟩ :: s.glances }
  /-- A request for what is there compares what it has read with the published version. -/
  | compare {s : Traffic} {g : Glance} {gs gs' : List Glance} (hg : s.glances = gs ++ g :: gs') :
      Step s (.existing { s.entry with parsed := some g.parsed }.existing?)
        { s with glances := gs ++ gs' }
  /-- The document is closed, or one is opened anew under its name. -/
  | close {s : Traffic} : Step s .silent { s with entry := { s.entry with closed := true } }

/-! ## The parsed form is current -/

/-- Every parsed form is that of the text it was asked for. -/
structure Current (s : Traffic) : Prop where
  /-- What is kept is the parsed form of the text that is held. -/
  parsed : ∀ {p}, s.entry.parsed = some p → p.document = .ofBuffer s.entry.buffer
  /-- The parse under way reads the text that is held, and nothing is kept meanwhile. -/
  parse : ∀ {p}, s.parse = some p → s.entry.parsed = none ∧ p.buffer = s.entry.buffer ∧
    p.events ++ Step.results p.rest = Event.ofText p.buffer.text
  /-- What was read is the parsed form of the text that was held then. -/
  glances : ∀ {g}, g ∈ s.glances → g.parsed.document = .ofBuffer g.buffer

theorem current_opened (b : Buffer) : (opened b).Current where
  parsed h := by cases h
  parse h := by cases h
  glances h := by cases h

namespace Current

variable {s : Traffic}

/-- An edit that is carried out leaves no parsed form, or everything as it was. -/
theorem commit (h : s.Current) (hfree : s.parse = none) (edit : WaitingEdit)
    (ws : List WaitingEdit) :
    { s with
      entry := (s.entry.commit edit.version edit.revision).2, waiting := ws }.Current := by
  obtain ⟨-, heq⟩ | ⟨-, b, -, heq⟩ | ⟨-, err, -, heq⟩ :=
    s.entry.commit_cases edit.version edit.revision
  · rw [heq]
    exact ⟨h.parsed, h.parse, h.glances⟩
  · rw [heq]
    exact ⟨nofun, fun h' => by simp [hfree] at h', h.glances⟩
  · rw [heq]
    dsimp only
    split
    · exact ⟨h.parsed, h.parse, h.glances⟩
    · exact ⟨h.parsed, h.parse, h.glances⟩

/-- A parse that has reported everything has read the text that is held. -/
theorem document_eq (h : s.Current) {b : Buffer} {es : List Event}
    (hp : s.parse = some ⟨b, es, []⟩) : Document.ofEvents b es = .ofBuffer s.entry.buffer := by
  obtain ⟨-, hb, hes⟩ := h.parse hp
  dsimp only at hb hes
  rw [Step.results_nil, List.append_nil] at hes
  rw [← hb, hes]
  rfl

/-- A parse goes on with the text it has. -/
theorem proceed (h : s.Current) {p p' : Parse} (hp : s.parse = some p)
    (hb : p'.buffer = p.buffer)
    (hes : p'.events ++ Step.results p'.rest = p.events ++ Step.results p.rest) :
    { s with parse := some p' }.Current where
  parsed := h.parsed
  parse h' := by
    obtain rfl := Option.some.inj h'
    obtain ⟨hnone, hbuf, hev⟩ := h.parse hp
    exact ⟨hnone, hb.trans hbuf, by rw [hes, hev, hb]⟩
  glances := h.glances

end Current

/-- No step leaves a parsed form behind that is not current. -/
theorem Step.current {s s' : Traffic} {a : Report} (hstep : Step s a s') (h : s.Current) :
    s'.Current := by
  cases hstep with
  | publish hpub =>
    obtain ⟨-, rfl⟩ := Entry.publish_eq_ok.mp hpub
    exact ⟨h.parsed, h.parse, h.glances⟩
  | refuse | share | missing => exact h
  | commit hfree hw => exact h.commit hfree _ _
  | lock hfree hp =>
    refine ⟨h.parsed, fun h' => ?_, h.glances⟩
    obtain rfl := Option.some.inj h'
    exact ⟨hp, rfl, rfl⟩
  | emit hp => exact h.proceed hp rfl (by simp)
  | pass hp hw => exact h.proceed hp rfl (by simp)
  | giveUp hp => exact ⟨h.parsed, nofun, h.glances⟩
  | store hp hq =>
    refine ⟨fun h' => ?_, nofun, h.glances⟩
    obtain rfl := Option.some.inj h'
    rw [hq]
    exact h.document_eq hp
  | glance hp =>
    refine ⟨h.parsed, h.parse, fun hg => ?_⟩
    rcases List.mem_cons.mp hg with rfl | hg
    · exact h.parsed hp
    · exact h.glances hg
  | compare hg =>
    refine ⟨h.parsed, h.parse, fun hg' => h.glances ?_⟩
    rw [hg]
    rcases List.mem_append.mp hg' with hg' | hg'
    · exact List.mem_append_left _ hg'
    · exact List.mem_append_right _ (List.mem_cons_of_mem _ hg')
  | close => exact ⟨h.parsed, h.parse, h.glances⟩

namespace Step

variable {s s' : Traffic}

/-- A request that is answered with a parsed form gets that of the text that is held. -/
theorem document_of_retrieved {p : Parsed} (hstep : Step s (.retrieved (.ok p)) s')
    (h : s.Current) :
    p.document = .ofBuffer s.entry.buffer ∧ s'.entry.buffer = s.entry.buffer := by
  cases hstep with
  | share hfree hp => exact ⟨h.parsed hp, rfl⟩
  | store hp hq =>
    rw [hq]
    exact ⟨h.document_eq hp, rfl⟩

/-- A parse that gives up leaves nothing behind. -/
theorem parsed_of_cancelled {err : WorkspaceError} (hstep : Step s (.retrieved (.error err)) s')
    (h : s.Current) : s'.entry = s.entry ∧ s'.entry.parsed = none := by
  cases hstep with
  | giveUp hp => exact ⟨rfl, (h.parse hp).1⟩

/-- What is found without a parse was kept when it was read. -/
theorem document_of_existing {p : Parsed} (hstep : Step s (.existing (some p)) s')
    (h : s.Current) : ∃ g ∈ s.glances, g.parsed = p ∧ p.document = .ofBuffer g.buffer := by
  generalize ha : Report.existing (some p) = a at hstep
  cases hstep with
  | missing hp => cases ha
  | @compare g gs gs' hg =>
    obtain ⟨hp, -⟩ := Entry.existing?_eq_some.mp (Report.existing.inj ha).symm
    obtain rfl := Option.some.inj hp
    have hmem : g ∈ s.glances := by simp [hg]
    exact ⟨g, hmem, rfl, h.glances hmem⟩
  | _ => cases ha

end Step

end Traffic

/-! ## Documents of one name -/

/-- The documents that were opened under one name, latest first. -/
abbrev Succession := List Traffic

namespace Succession

/-- What can happen next to the documents of a name. The requests under way on a document that
was closed or opened anew go on with it. -/
inductive Step : Succession → Report → Succession → Prop
  /-- A document is opened under the name. -/
  | openDocument {ss : Succession} (b : Buffer) : Step ss .silent (.opened b :: ss)
  /-- Something happens to one of the documents. -/
  | within {ss ss' : Succession} {s s' : Traffic} {a : Report} (h : Traffic.Step s a s') :
      Step (ss ++ s :: ss') a (ss ++ s' :: ss')

theorem Step.current {ss ss' : Succession} {a : Report} (hstep : Step ss a ss')
    (h : ∀ s ∈ ss, s.Current) : ∀ s ∈ ss', s.Current := by
  cases hstep with
  | openDocument b =>
    intro s hs
    rcases List.mem_cons.mp hs with rfl | hs
    · exact Traffic.current_opened b
    · exact h s hs
  | @within pre post t t' _ hstep =>
    intro s hs
    have ht : t.Current := h t (by simp)
    rcases List.mem_append.mp hs with hs | hs
    · exact h s (List.mem_append_left _ hs)
    · rcases List.mem_cons.mp hs with rfl | hs
      · exact hstep.current ht
      · exact h s (by simp [hs])

/-- A run of one document is a run of the documents of its name. -/
theorem trace_of_opened {b : Buffer} {as : List Report} {s : Traffic}
    (h : Trace Traffic.Step (.opened b) as s) : Trace Step [] (.silent :: as) [s] := by
  refine Trace.cons (Step.openDocument b) ?_
  induction h with
  | nil => exact Trace.nil
  | snoc _ hstep ih => exact ih.snoc (@Step.within [] [] _ _ _ hstep)

/-- Whatever the order of the requests on the documents of a name :

* what a document keeps is the parsed form of the text that it holds, at the same version;
* a request that parses, or finds a parse, is answered with the parsed form of the text that
  the document holds when it answers;
* a request for what is there is answered with the parsed form of the text that the document
  held when the request read it;
* a parse that gives up leaves no parsed form behind. -/
theorem answers_current {as : List Report} {ss : Succession} (h : Trace Step [] as ss)
    {s : Traffic} (hs : s ∈ ss) :
    (∀ p, s.entry.parsed = some p → p.document = .ofBuffer s.entry.buffer ∧
      p.document.buffer.version = s.entry.buffer.version) ∧
    ∀ a s', Traffic.Step s a s' →
      (∀ p, a = .retrieved (.ok p) → p.document = .ofBuffer s.entry.buffer ∧
        s'.entry.buffer = s.entry.buffer) ∧
      (∀ p, a = .existing (some p) → ∃ g ∈ s.glances, g.parsed = p ∧
        p.document = .ofBuffer g.buffer) ∧
      ∀ err, a = .retrieved (.error err) → s'.entry = s.entry ∧ s'.entry.parsed = none := by
  have hc : s.Current :=
    h.invariant (P := fun ss => ∀ s ∈ ss, s.Current) Step.current (by simp) s hs
  refine ⟨fun p hp => ⟨hc.parsed hp, ?_⟩, fun a s' hstep => ⟨?_, ?_, ?_⟩⟩
  · rw [hc.parsed hp, Document.ofBuffer_buffer]
  · rintro p rfl
    exact hstep.document_of_retrieved hc
  · rintro p rfl
    exact hstep.document_of_existing hc
  · rintro err rfl
    exact hstep.parsed_of_cancelled hc

/-- Version 2 of a document is published while version 1 is parsed, and the parse ends before
the edit is carried out. -/
theorem answers_current_overtaken : ∃ (as : List Report) (s : Traffic) (p : Parsed),
    Trace Step [] as [s] ∧ s.entry.published = 2 ∧ s.waiting = [⟨2, .replace ['a']⟩] ∧
      s.entry.parsed = some p ∧ p.document = .ofBuffer ⟨"a", [], 1⟩ := by
  have htrace : Trace Traffic.Step (.opened ⟨"a", [], 1⟩) _ _ :=
    Trace.single (.lock rfl rfl)
      |>.snoc (.emit rfl)
      |>.snoc (@Traffic.Step.publish _ ⟨2, .replace ['a']⟩ _ rfl)
      |>.snoc (.emit rfl)
      |>.snoc (.store rfl rfl)
  have hrun := trace_of_opened htrace
  exact ⟨_, _, _, hrun, rfl, rfl, rfl,
    ((answers_current hrun (List.mem_singleton_self _)).1 _ rfl).1⟩

end Succession

end DotProperties
