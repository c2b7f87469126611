import DotProperties.Proofs.Event.Polls
import DotProperties.Proofs.Workspace.Flight

/-!
# Parses that are overtaken

While a document is locked for a parse, other requests publish newer versions of it, close it or
open another one under its name. A `Schedule` places them between the polls of the parse, together
with the answers of the one who asked. A request overtakes the parse (`Workspace.Request.overtakes`)
if it makes its result unwanted. From then on the parse is outdated, since nothing takes the
published version back while the lock is held (`Flight.UnderWay.isOutdated_serve`).

So a parse is cancelled if and only if it is overtaken before its last poll, or the one who asked
is consulted and has lost interest. Otherwise it stores the parsed form of the buffer that was
locked, which is kept until an edit is carried out (`Schedule.decides_retrieve`).
-/

namespace DotProperties

/-! ## What overtakes a parse -/

/-- The request makes a parse of `uri` at `version` unwanted : it closes the document, opens another
one under its name, or publishes a newer version. -/
def Workspace.Request.overtakes (uri : String) (version : Int) : Workspace.Request → Bool
  | .openDocument uri' _ _ | .closeDocument uri' => uri' == uri
  | .revise uri' version' _ => uri' == uri && decide (version < version')
  | .version _ | .existing _ => false

namespace Flight

variable {f : Flight} {uri : String} {b : Buffer}

theorem Linked.eq_of_locks (h : f.Linked uri) {uri' : String} (hlocks : f.locks uri' = true) :
    uri' = uri := by
  rw [locks, Bool.and_eq_true, beq_iff_eq, h.uri_eq] at hlocks
  exact hlocks.2

/-- A document that is not locked any more is closed. -/
theorem Linked.closed_of_not_locks (h : f.Linked uri) (hlocks : ¬f.locks uri = true) :
    f.entry.closed = true := by
  rcases h.entry with ⟨hatt, -⟩ | ⟨-, hclosed⟩
  · exact absurd rfl (h.ne_of_not_locks hlocks hatt)
  · exact hclosed

/-- What a request makes of the document `e` that is locked for a parse at `version`. -/
inductive Effect (uri : String) (version : Int) (request : Workspace.Request) (e : Entry) :
    Entry → Prop
  /-- It leaves the document as it is. If it overtakes the parse, another one did before. -/
  | none (h : request.overtakes uri version = true → e.isOutdated version = true) :
      Effect uri version request e e
  /-- It closes the document. -/
  | close (h : request.overtakes uri version = true) :
      Effect uri version request e { e with closed := true }
  /-- It publishes a newer version. -/
  | publish {version' : Int} (h : request.overtakes uri version = true)
      (hlt : e.published < version') : Effect uri version request e { e with published := version' }

/-- A request that closes a document, or puts another one in its place. -/
theorem Linked.effect_replace (h : f.Linked uri) (uri' : String) {version : Int}
    {request : Workspace.Request} (hrequest : request.overtakes uri version = (uri' == uri)) :
    Effect uri version request f.entry
      ((if f.locks uri' then f.detach else f).serveInWorkspace request).entry := by
  split_ifs with hlocks
  · exact .close (by rw [hrequest, h.eq_of_locks hlocks, beq_self_eq_true])
  · refine .none fun hovertakes => Entry.isOutdated_iff.mpr (Or.inl ?_)
    obtain rfl : uri' = uri := by simpa [hrequest] using hovertakes
    exact h.closed_of_not_locks hlocks

theorem Linked.effect_serve (h : f.Linked uri) {version : Int} (hle : version ≤ f.entry.published)
    (request : Workspace.Request) :
    Effect uri version request f.entry (f.serve request).entry := by
  cases request with
  | openDocument uri' text v => exact h.effect_replace uri' rfl
  | closeDocument uri' => exact h.effect_replace uri' rfl
  | revise uri' v r =>
    have hovertakes : Workspace.Request.overtakes uri version (.revise uri' v r) = true ↔
        uri' = uri ∧ version < v := by
      simp [Workspace.Request.overtakes]
    rw [Flight.serve]
    split_ifs with hlocks
    · obtain rfl := h.eq_of_locks hlocks
      rcases Int.lt_or_le f.entry.published v with hlt | hpublished
      · rw [Flight.enqueue, Entry.publish_of_lt hlt]
        dsimp only
        rw [setEntry_entry]
        exact .publish (hovertakes.mpr ⟨rfl, Int.lt_of_le_of_lt hle hlt⟩) hlt
      · rw [Flight.enqueue, Entry.publish_of_le hpublished]
        refine .none fun ho => Entry.isOutdated_iff.mpr (Or.inr ?_)
        have hlt := (hovertakes.mp ho).2
        omega
    · refine .none fun ho => Entry.isOutdated_iff.mpr (Or.inl ?_)
      obtain ⟨rfl, -⟩ := hovertakes.mp ho
      exact h.closed_of_not_locks hlocks
  | version | existing => exact .none fun ho => by cases ho

/-- The buffer `b` of the document `uri` is locked for a parse. -/
structure UnderWay (uri : String) (b : Buffer) (f : Flight) : Prop where
  /-- The document is the one of its name, or it is closed. -/
  linked : f.Linked uri
  /-- The document holds the buffer. -/
  buffer : f.entry.buffer = b
  /-- There is no parsed form. -/
  parsed : f.entry.parsed = none
  /-- The published version is not behind the buffer. -/
  published : b.version ≤ f.entry.published

/-- The document `uri` was locked for a parse, and nothing was polled yet. It has no parsed form,
and its version is the published one. -/
structure Locked (uri : String) (f : Flight) : Prop where
  /-- The document is the one of its name, or it is closed. -/
  linked : f.Linked uri
  /-- There is no parsed form. -/
  parsed : f.entry.parsed = none
  /-- The published version is that of the buffer. -/
  published : f.entry.published = f.entry.buffer.version
  /-- The one who asked was not consulted yet. -/
  polls : f.polls = 0

theorem Locked.underWay (h : f.Locked uri) : f.UnderWay uri f.entry.buffer :=
  ⟨h.linked, rfl, h.parsed, h.published.ge⟩

namespace UnderWay

theorem setPolls (h : f.UnderWay uri b) (polls : Nat) : UnderWay uri b { f with polls := polls } :=
  ⟨⟨h.linked.uri_eq, h.linked.entry⟩, h.buffer, h.parsed, h.published⟩

/-- Requests served meanwhile leave the buffer alone and store no parsed form. -/
theorem serve (h : f.UnderWay uri b) (request : Workspace.Request) :
    (f.serve request).UnderWay uri b := by
  have heffect := h.linked.effect_serve h.published request
  have hlinked := h.linked.serve request
  generalize f.serve request = f' at heffect hlinked
  obtain ⟨w, uri', e, attached, waiting, polls, replies⟩ := f'
  dsimp only at heffect
  cases heffect with
  | none | close => exact ⟨hlinked, h.buffer, h.parsed, h.published⟩
  | publish _ hlt => exact ⟨hlinked, h.buffer, h.parsed, h.published.trans hlt.le⟩

/-- A parse is outdated once a request has overtaken it, and stays so. -/
theorem isOutdated_serve (h : f.UnderWay uri b) (request : Workspace.Request) :
    (f.serve request).entry.isOutdated b.version = true ↔
      f.entry.isOutdated b.version = true ∨ request.overtakes uri b.version = true := by
  have hpublished := h.published
  have heffect := h.linked.effect_serve hpublished request
  generalize (f.serve request).entry = e at heffect
  cases heffect with
  | none hover => exact ⟨Or.inl, fun ho => ho.elim id hover⟩
  | close hover => exact iff_of_true rfl (Or.inr hover)
  | publish hover hlt =>
    refine iff_of_true (Entry.isOutdated_iff.mpr (Or.inr ?_)) (Or.inr hover)
    dsimp only
    omega

theorem serveAll (h : f.UnderWay uri b) (requests : List Workspace.Request) :
    (requests.foldl Flight.serve f).UnderWay uri b := by
  induction requests generalizing f with
  | nil => exact h
  | cons request requests ih => exact ih (h.serve request)

theorem isOutdated_serveAll (h : f.UnderWay uri b) (requests : List Workspace.Request) :
    (requests.foldl Flight.serve f).entry.isOutdated b.version = true ↔
      f.entry.isOutdated b.version = true ∨
        ∃ request ∈ requests, request.overtakes uri b.version = true := by
  induction requests generalizing f with
  | nil => simp
  | cons request requests ih =>
    rw [List.foldl_cons, ih (h.serve request), h.isOutdated_serve request, or_assoc,
      List.exists_mem_cons_iff]

end UnderWay

theorem serve_polls (f : Flight) (request : Workspace.Request) :
    (f.serve request).polls = f.polls := by
  cases request with
  | openDocument uri' | closeDocument uri' =>
    rw [serve]
    split_ifs <;> rfl
  | revise uri' version r =>
    rw [serve]
    split_ifs
    · rcases hpub : f.entry.publish version with err | e
      · simp only [enqueue, hpub]
      · simp only [enqueue, hpub, setEntry_polls]
    · rfl
  | version | existing => rfl

theorem serveAll_polls (f : Flight) (requests : List Workspace.Request) :
    (requests.foldl serve f).polls = f.polls := by
  induction requests generalizing f with
  | nil => rfl
  | cons request requests ih => rw [List.foldl_cons, ih, serve_polls]

end Flight

/-! ## Reading a buffer line by line -/

namespace Document

variable {σ : Type} {check : Checker σ} {s : σ} {b : Buffer}

/-- A buffer is read to its end if no line of it is answered with `true`. -/
theorem read_of_all_pass (h : ∀ k < b.text.physicalLines.length, check.answer s k = false) :
    read check s b = (some (.ofBuffer b), check.state s b.text.physicalLines.length) := by
  rw [← Event.polls_scan] at h ⊢
  rw [read, Step.run_eq_answering, Step.run_of_all_pass h]
  rfl

/-- The first line that is answered with `true` is the last one asked for. -/
theorem read_of_first {k : Nat} (hk : k < b.text.physicalLines.length)
    (h : check.answer s k = true) (hfirst : ∀ j < k, check.answer s j = false) :
    read check s b = (none, check.state s (k + 1)) := by
  rw [← Event.polls_scan] at hk
  rw [read, Step.run_eq_answering, Step.run_of_first hk h hfirst]
  rfl

end Document

/-! ## Schedules -/

/-- Where requests fall between the polls of a parse, and what the one who asked answers. Polls are
numbered from zero. -/
structure Schedule where
  /-- The requests served before a poll, and behind the one before it. -/
  before : Nat → List Workspace.Request
  /-- The answer to a poll, if the one who asked is consulted. -/
  answers : Nat → Bool

namespace Schedule

/-- The asker inside of whose polls the requests are served, but for those before the first poll. -/
def asker (s : Schedule) : Asker := ⟨fun k => s.before (k + 1), s.answers⟩

/-- The flight of a document that was locked in `f`, when it comes to the poll number `k`. -/
def flight (s : Schedule) (f : Flight) : Nat → Flight
  | 0 => (s.before 0).foldl Flight.serve f
  | k + 1 => (s.before (k + 1)).foldl Flight.serve { s.flight f k with polls := k + 1 }

/-- Parse a document that was locked in `f`. -/
def run (s : Schedule) (f : Flight) : Except WorkspaceError Parsed × Flight :=
  (s.flight f 0).parse s.asker

/-- Something has overtaken the parse of a document that was locked in `f` before the poll number
`k` : the document was closed when it was locked, or a request has been served since. -/
def Overtakes (s : Schedule) (f : Flight) (k : Nat) : Prop :=
  f.entry.closed = true ∨ ∃ j ≤ k, ∃ request ∈ s.before j,
    request.overtakes f.uri f.entry.buffer.version = true

variable {f : Flight} {uri : String} {b : Buffer}

theorem underWay_flight (s : Schedule) (h : f.UnderWay uri b) (k : Nat) :
    (s.flight f k).UnderWay uri b := by
  induction k with
  | zero => exact h.serveAll _
  | succ k ih => exact (ih.setPolls (k + 1)).serveAll _

theorem polls_flight (s : Schedule) (h : f.polls = 0) (k : Nat) : (s.flight f k).polls = k := by
  cases k with
  | zero => exact (Flight.serveAll_polls f _).trans h
  | succ k => exact Flight.serveAll_polls _ _

/-- A parse that comes to a poll is outdated if and only if something has overtaken it. -/
theorem isOutdated_flight (s : Schedule) (h : f.UnderWay uri b) (k : Nat) :
    (s.flight f k).entry.isOutdated b.version = true ↔ f.entry.isOutdated b.version = true ∨
      ∃ j ≤ k, ∃ request ∈ s.before j, request.overtakes uri b.version = true := by
  induction k with
  | zero =>
    rw [flight, h.isOutdated_serveAll]
    simp
  | succ k ih =>
    have hway := (s.underWay_flight h k).setPolls (k + 1)
    rw [flight, hway.isOutdated_serveAll]
    dsimp only
    rw [ih, or_assoc]
    simp only [Nat.le_succ_iff, or_and_right, exists_or, exists_eq_left]

/-- The parse of a document that was just locked is outdated if and only if it was overtaken. -/
theorem isOutdated_flight_iff (s : Schedule) (h : f.Locked uri) (k : Nat) :
    (s.flight f k).entry.isOutdated f.entry.buffer.version = true ↔ s.Overtakes f k := by
  rw [s.isOutdated_flight h.underWay k, Entry.isOutdated_iff, Overtakes, h.linked.uri_eq]
  simp only [h.published, ne_eq, not_true_eq_false, or_false]

/-- The checker of the parse of a document that was locked in `f`. -/
def check (s : Schedule) (f : Flight) : Checker Flight := s.asker.check f.entry.buffer.version

/-- A poll stops a parse that was overtaken. Otherwise it consults the one who asked, and the
requests up to the next poll are served inside of it. -/
theorem check_flight (s : Schedule) (h : f.Locked uri) (k : Nat) :
    s.Overtakes f k ∧ s.check f (s.flight f k) = (true, s.flight f k) ∨
      ¬s.Overtakes f k ∧ s.check f (s.flight f k) = (s.answers k, s.flight f (k + 1)) := by
  have hout := s.isOutdated_flight_iff h k
  by_cases hover : s.Overtakes f k
  · exact Or.inl ⟨hover, s.asker.check_of_outdated (hout.mpr hover)⟩
  · refine Or.inr ⟨hover, ?_⟩
    rw [check, s.asker.check_of_wanted (Bool.eq_false_iff.mpr (mt hout.mp hover)),
      s.polls_flight h.polls k]
    rfl

/-- The polls of a parse find the flight of the schedule as long as they pass. -/
theorem state_check (s : Schedule) (h : f.Locked uri) {k : Nat}
    (hpass : ∀ j < k, (s.check f).answer (s.flight f 0) j = false) :
    (s.check f).state (s.flight f 0) k = s.flight f k := by
  induction k with
  | zero => rfl
  | succ k ih =>
    have hlast := hpass k (Nat.lt_succ_self k)
    have hstate := ih fun j hj => hpass j (Nat.lt_succ_of_lt hj)
    rw [Checker.answer, hstate] at hlast
    rw [Checker.state, hstate]
    obtain ⟨-, hcheck⟩ | ⟨-, hcheck⟩ := s.check_flight h k
    · rw [hcheck] at hlast
      exact nomatch hlast
    · rw [hcheck]

/-- A poll that is reached passes if the parse was not overtaken and is still wanted. -/
theorem answer_check_iff (s : Schedule) (h : f.Locked uri) {k : Nat}
    (hpass : ∀ j < k, (s.check f).answer (s.flight f 0) j = false) :
    (s.check f).answer (s.flight f 0) k = false ↔ ¬s.Overtakes f k ∧ s.answers k = false := by
  rw [Checker.answer, s.state_check h hpass]
  obtain ⟨hover, hcheck⟩ | ⟨hover, hcheck⟩ := s.check_flight h k
  · rw [hcheck]
    exact iff_of_false nofun fun hnot => hnot.1 hover
  · rw [hcheck]
    exact (and_iff_right hover).symm

end Schedule

/-! ## How a parse ends -/

namespace Flight

theorem commit_cases (f : Flight) (edit : Except WorkspaceError WaitingEdit) :
    (f.commit edit).1 = .ok () ∧ (f.commit edit).2.entry.parsed = none ∨
      (f.commit edit).1 ≠ .ok () ∧ (f.commit edit).2.entry.parsed = f.entry.parsed := by
  rcases edit with err | ⟨version, r⟩
  · exact Or.inr ⟨nofun, rfl⟩
  · simp only [commit, setEntry_entry]
    obtain ⟨-, heq⟩ | ⟨-, b, -, heq⟩ | ⟨-, err, -, heq⟩ := f.entry.commit_cases version r
    · exact Or.inr (by rw [heq]; exact ⟨nofun, rfl⟩)
    · exact Or.inl (by rw [heq]; exact ⟨rfl, rfl⟩)
    · refine Or.inr ?_
      rw [heq]
      refine ⟨nofun, ?_⟩
      dsimp only
      split_ifs <;> rfl

/-- Edits that are carried out drop the parsed form if one of them succeeds, and keep it
otherwise. -/
theorem parsed_commitAll (f : Flight) (edits : List (Except WorkspaceError WaitingEdit)) :
    (.ok () ∈ (f.commitAll edits).1 → (f.commitAll edits).2.entry.parsed = none) ∧
      (.ok () ∉ (f.commitAll edits).1 →
        (f.commitAll edits).2.entry.parsed = f.entry.parsed) := by
  induction edits generalizing f with
  | nil => exact ⟨nofun, fun _ => rfl⟩
  | cons edit edits ih =>
    obtain ⟨hdrop, hkeep⟩ := ih (f.commit edit).2
    simp only [commitAll, List.mem_cons]
    by_cases hmem : .ok () ∈ ((f.commit edit).2.commitAll edits).1
    · exact ⟨fun _ => hdrop hmem, fun hnot => absurd (Or.inr hmem) hnot⟩
    · rw [hkeep hmem]
      obtain ⟨hok, hparsed⟩ | ⟨herror, hparsed⟩ := f.commit_cases edit
      · exact ⟨fun _ => hparsed, fun hnot => absurd (Or.inl hok.symm) hnot⟩
      · exact ⟨fun h => h.elim (absurd ·.symm herror) (absurd · hmem), fun _ => hparsed⟩

end Flight

namespace Schedule

variable {f : Flight} {uri : String}

/-- How the parse of a document that was locked in `f` ends : with an answer, and the flight it
leaves to the edits that wait. -/
structure Decides (s : Schedule) (f : Flight) (answer : Except WorkspaceError Parsed)
    (f' : Flight) : Prop where
  /-- It is cancelled if it is overtaken before one of its polls, or if the one who asked was
  consulted and has lost interest. -/
  cancelled_iff : answer = .error .cancelled ↔
    (∃ k < f.entry.buffer.text.physicalLines.length, s.Overtakes f k) ∨
      ∃ k < f'.polls, s.answers k = true
  /-- If it is cancelled there is no parsed form. -/
  forgotten : answer = .error .cancelled → f'.entry.parsed = none
  /-- Otherwise the answer is the parsed form of the buffer that was locked, and it is stored. -/
  stored : answer ≠ .error .cancelled → ∃ p, answer = .ok p ∧
    p.document = .ofBuffer f.entry.buffer ∧ f'.entry.parsed = some p
  /-- The document is the one of its name, or it is closed. -/
  linked : f'.Linked f.uri
  /-- What is stored is dropped by the first edit that is carried out, and by nothing else. -/
  dropped : ∀ edits,
    (.ok () ∈ (f'.commitAll edits).1 → (f'.commitAll edits).2.entry.parsed = none) ∧
      (.ok () ∉ (f'.commitAll edits).1 →
        (f'.commitAll edits).2.entry.parsed = f'.entry.parsed)

/-- A parse that is cancelled leaves no parsed form. -/
theorem decides_of_cancelled {s : Schedule} {f' : Flight} (h : f'.UnderWay f.uri f.entry.buffer)
    (hreason : (∃ k < f.entry.buffer.text.physicalLines.length, s.Overtakes f k) ∨
      ∃ k < f'.polls, s.answers k = true) :
    s.Decides f (.error .cancelled) f' where
  cancelled_iff := iff_of_true rfl hreason
  forgotten _ := h.parsed
  stored hne := absurd rfl hne
  linked := h.linked
  dropped := f'.parsed_commitAll

/-- A parse that passes all of its polls stores its result. -/
theorem decides_of_passed {s : Schedule} {f' : Flight} (h : f'.UnderWay f.uri f.entry.buffer)
    (hover : ∀ k < f.entry.buffer.text.physicalLines.length, ¬s.Overtakes f k)
    (hanswers : ∀ k < f'.polls, s.answers k = false) (serial : Nat) :
    s.Decides f (.ok ⟨serial, .ofBuffer f.entry.buffer⟩)
      (f'.store ⟨serial, .ofBuffer f.entry.buffer⟩) where
  cancelled_iff := by
    refine iff_of_false nofun ?_
    rintro (⟨k, hk, hk'⟩ | ⟨k, hk, hanswer⟩)
    · exact hover k hk hk'
    · rw [f'.store_polls] at hk
      exact nomatch (hanswers k hk).symm.trans hanswer
  forgotten := nofun
  stored _ := ⟨_, rfl, rfl, by rw [f'.store_entry]⟩
  linked := h.linked.store _
  dropped := Flight.parsed_commitAll _

theorem decides_run (s : Schedule) (h : f.Locked uri) : s.Decides f (s.run f).1 (s.run f).2 := by
  have hway (k : Nat) : (s.flight f k).UnderWay f.uri f.entry.buffer :=
    h.linked.uri_eq ▸ s.underWay_flight h.underWay k
  have hread : Document.read (s.asker.check (s.flight f 0).entry.buffer.version) (s.flight f 0)
      (s.flight f 0).entry.buffer = Document.read (s.check f) (s.flight f 0) f.entry.buffer := by
    rw [(hway 0).buffer]
    rfl
  rcases Step.all_pass_or_first f.entry.buffer.text.physicalLines.length
    ((s.check f).answer (s.flight f 0)) with hpass | ⟨k, hk, hstop, hfirst⟩
  · have hreached (k : Nat) (hk : k < f.entry.buffer.text.physicalLines.length) :=
      (s.answer_check_iff h fun j hj => hpass j (hj.trans hk)).mp (hpass k hk)
    rw [run, Flight.parse, hread, Document.read_of_all_pass hpass, s.state_check h hpass]
    refine decides_of_passed (hway _) (fun k hk => (hreached k hk).1) (fun k hk => ?_) _
    rw [s.polls_flight h.polls] at hk
    exact (hreached k hk).2
  · rw [run, Flight.parse, hread, Document.read_of_first hk hstop hfirst, Checker.state,
      s.state_check h hfirst]
    rw [Checker.answer, s.state_check h hfirst] at hstop
    obtain ⟨hover, hcheck⟩ | ⟨-, hcheck⟩ := s.check_flight h k
    · rw [hcheck]
      exact decides_of_cancelled (hway k) (Or.inl ⟨k, hk, hover⟩)
    · rw [hcheck] at hstop ⊢
      refine decides_of_cancelled (hway (k + 1)) (Or.inr ⟨k, ?_, hstop⟩)
      rw [s.polls_flight h.polls]
      exact Nat.lt_succ_self k

/-- A document that was just locked, with no parsed form and at the published version, is parsed
while requests and answers fall between the polls in any way :

* the parse is cancelled if and only if a newer version is published, or the document closed or
  opened anew, before the last poll, or the one who asked answers with `true` when consulted;
* then there is still no parsed form;
* otherwise the answer is the parsed form of the buffer that was locked, which is stored, and
  dropped by the first edit that is carried out.

A request for the parsed form of an open document is such a parse, with all other requests behind
the first poll. -/
theorem decides_retrieve (s : Schedule) {f : Flight} {uri : String} (h : f.Locked uri) :
    s.Decides f (s.run f).1 (s.run f).2 ∧
      ∀ w e, f = .ofEntry w uri e → s.before 0 = [] →
        w.retrieve uri s.asker = Flight.retrieval (s.run f).1 (s.run f).2 := by
  refine ⟨s.decides_run h, ?_⟩
  rintro w e rfl hbefore
  have he : w.entry? uri = some e := by
    rcases h.linked.entry with ⟨-, he⟩ | ⟨hdetached, -⟩
    · exact he
    · exact nomatch hdetached
  rw [Workspace.retrieve_of_unparsed he h.parsed, Workspace.parse_eq, run, flight, hbefore]
  rfl

/-- Version 2 is published before the second poll of a parse of two lines, and behind it. -/
theorem decides_retrieve_two_lines : ∃ (f : Flight) (s s' : Schedule) (p : Parsed),
    f.entry.buffer = ⟨"u", ['a', '\n', 'b'], 1⟩ ∧
    s.before 1 = [.revise "u" 2 (.replace [])] ∧ s'.before 2 = [.revise "u" 2 (.replace [])] ∧
    (s.run f).1 = .error .cancelled ∧ (s.run f).2.entry.parsed = none ∧
    (s'.run f).1 = .ok p ∧ p.document = .ofBuffer ⟨"u", ['a', '\n', 'b'], 1⟩ ∧
    (s'.run f).2.entry.parsed = some p ∧
    ((s'.run f).2.commitAll (s'.run f).2.waiting).2.entry.parsed = none := by
  let b : Buffer := ⟨"u", ['a', '\n', 'b'], 1⟩
  let f : Flight := .ofEntry (Workspace.empty.openDocument "u" b.text 1) "u" (.ofBuffer b)
  let edit : Workspace.Request := .revise "u" 2 (.replace [])
  let s : Schedule := ⟨fun k => if k = 1 then [edit] else [], fun _ => false⟩
  let s' : Schedule := ⟨fun k => if k = 2 then [edit] else [], fun _ => false⟩
  have hlocked : f.Locked "u" := ⟨⟨rfl, Or.inl ⟨rfl, rfl⟩⟩, rfl, rfl, rfl⟩
  have hdecides := (s.decides_retrieve hlocked).1
  have hdecides' := (s'.decides_retrieve hlocked).1
  have hcancelled : (s.run f).1 = .error .cancelled := by
    refine hdecides.cancelled_iff.mpr (Or.inl ⟨1, by decide, Or.inr ⟨1, le_rfl, ?_⟩⟩)
    exact ⟨_, List.mem_singleton_self _, rfl⟩
  obtain ⟨p, hanswer, hdocument, hstored⟩ := hdecides'.stored nofun
  refine ⟨f, s, s', p, rfl, rfl, rfl, hcancelled, hdecides.forgotten hcancelled, hanswer, hdocument,
    hstored, (hdecides'.dropped _).1 ?_⟩
  exact List.mem_singleton_self _

end Schedule

end DotProperties
