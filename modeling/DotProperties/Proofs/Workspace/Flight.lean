import DotProperties.Proofs.Workspace.Basic
import DotProperties.Proofs.Workspace.Traffic

/-!
# A flight is a run

`Workspace.parse` carries out a parse together with the requests that are served inside its
polls and the edits that wait for its end. What this does to the document is a run of
`Traffic.Step`, and what it answers is reported on the way (`Workspace.exists_trace_parse`).
So everything that holds of all runs holds of all flights.

`Flight.Follows` relates a flight under way to a run. Requests served inside a poll preserve
it (`Flight.Follows.serve`), the steps of the parse do (`Flight.Follows.runFrom`), and so do
the edits that are carried out in the end (`Flight.Follows.commitAll`).
-/

namespace DotProperties

/-! ## Requests on other documents -/

namespace Workspace

variable {w : Workspace} {uri uri' : String} {e : Entry}

theorem serve_parses (w : Workspace) (request : Request) : (w.serve request).2.parses = w.parses := by
  cases request with
  | revise uri version r =>
    rcases he : w.entry? uri with _ | e
    · simp only [serve, revise_of_unknown he]
    · simp only [serve, revise_of_some he]
      rfl
  | _ => rfl

theorem entry?_openDocument_of_ne (h : uri ≠ uri') (text : Text) (version : Int) :
    Workspace.entry? (w.openDocument uri' text version) uri = w.entry? uri := by
  rw [openDocument, entry?_insert, if_neg h]

theorem entry?_closeDocument_of_ne (h : uri ≠ uri') :
    Workspace.entry? (w.closeDocument uri').2 uri = w.entry? uri := by
  rw [closeDocument, entry?_erase, if_neg h]

theorem entry?_revise_of_ne (h : uri ≠ uri') (version : Int) (r : Revision) :
    Workspace.entry? (w.revise uri' version r).2 uri = w.entry? uri := by
  rcases he : w.entry? uri' with _ | e
  · rw [revise_of_unknown he]
  · rw [revise_of_some he, entry?_insert, if_neg h]

end Workspace

namespace Asker

variable {f : Flight} {version : Int}

theorem check_of_outdated (a : Asker) (h : f.entry.isOutdated version = true) :
    a.check version f = (true, f) :=
  if_pos h

theorem check_of_wanted (a : Asker) (h : f.entry.isOutdated version = false) :
    a.check version f =
      (a.answers f.polls, (a.meanwhile f.polls).foldl Flight.serve { f with polls := f.polls + 1 }) :=
  if_neg (Bool.not_eq_true _ ▸ h)

end Asker

/-! ## The document of a flight -/

namespace Flight

variable {f : Flight} {uri : String}

theorem setEntry_of_attached (h : f.attached = true) (e : Entry) :
    f.setEntry e = { f with entry := e, workspace := f.workspace.insert f.uri e } :=
  if_pos h

theorem setEntry_of_detached (h : f.attached = false) (e : Entry) :
    f.setEntry e = { f with entry := e } := by
  rw [setEntry, h]
  rfl

@[simp] theorem setEntry_entry (f : Flight) (e : Entry) : (f.setEntry e).entry = e := by
  unfold setEntry
  split
  next => rfl
  next => rfl

@[simp] theorem setEntry_waiting (f : Flight) (e : Entry) :
    (f.setEntry e).waiting = f.waiting := by
  unfold setEntry
  split
  next => rfl
  next => rfl

@[simp] theorem setEntry_parses (f : Flight) (e : Entry) :
    (f.setEntry e).workspace.parses = f.workspace.parses := by
  unfold setEntry
  split
  next => rfl
  next => rfl

@[simp] theorem setEntry_polls (f : Flight) (e : Entry) : (f.setEntry e).polls = f.polls := by
  unfold setEntry
  split
  next => rfl
  next => rfl

/-- The document of a flight is the one of its name, or it is closed. -/
structure Linked (uri : String) (f : Flight) : Prop where
  /-- The name of the document. -/
  uri_eq : f.uri = uri
  /-- The document is in the workspace, or it is closed. -/
  entry : (f.attached = true ∧ f.workspace.entry? uri = some f.entry) ∨
    (f.attached = false ∧ f.entry.closed = true)

theorem Linked.setEntry (h : f.Linked uri) {e : Entry} (he : e.closed = f.entry.closed) :
    (f.setEntry e).Linked uri := by
  rcases h.entry with ⟨hatt, -⟩ | ⟨hatt, hclosed⟩
  · rw [setEntry_of_attached hatt]
    refine ⟨h.uri_eq, Or.inl ⟨hatt, ?_⟩⟩
    rw [← h.uri_eq, Workspace.entry?_insert, if_pos rfl]
  · rw [setEntry_of_detached hatt]
    exact ⟨h.uri_eq, Or.inr ⟨hatt, he.trans hclosed⟩⟩

theorem Linked.ne_of_not_locks (h : f.Linked uri) {uri' : String} (hlocks : ¬f.locks uri')
    (hatt : f.attached = true) : uri ≠ uri' := by
  rintro rfl
  exact hlocks (by simp [locks, hatt, h.uri_eq])

theorem Linked.serveInWorkspace (h : f.Linked uri) (request : Workspace.Request)
    (hentry : f.attached = true →
      Workspace.entry? (f.workspace.serve request).2 uri = f.workspace.entry? uri) :
    (f.serveInWorkspace request).Linked uri := by
  refine ⟨h.uri_eq, ?_⟩
  rcases h.entry with ⟨hatt, he⟩ | hclosed
  · exact Or.inl ⟨hatt, (hentry hatt).trans he⟩
  · exact Or.inr hclosed

theorem Linked.detach (h : f.Linked uri) : f.detach.Linked uri := ⟨h.uri_eq, Or.inr ⟨rfl, rfl⟩⟩

theorem Linked.enqueue (h : f.Linked uri) (version : Int) (r : Revision) :
    (f.enqueue version r).Linked uri := by
  unfold Flight.enqueue
  rcases hpub : f.entry.publish version with err | e
  · exact ⟨h.uri_eq, h.entry⟩
  · obtain ⟨-, rfl⟩ := Entry.publish_eq_ok.mp hpub
    have hlinked := h.setEntry (e := { f.entry with published := version }) rfl
    exact ⟨hlinked.uri_eq, hlinked.entry⟩

theorem Linked.replace (h : f.Linked uri) (uri' : String) (request : Workspace.Request)
    (hentry : uri ≠ uri' →
      Workspace.entry? (f.workspace.serve request).2 uri = f.workspace.entry? uri) :
    ((if f.locks uri' then f.detach else f).serveInWorkspace request).Linked uri := by
  split
  next => exact h.detach.serveInWorkspace request nofun
  next hlocks =>
    exact h.serveInWorkspace request fun hatt => hentry (h.ne_of_not_locks hlocks hatt)

/-- The requests served meanwhile keep track of the document. -/
theorem Linked.serve (h : f.Linked uri) (request : Workspace.Request) :
    (f.serve request).Linked uri := by
  cases request with
  | openDocument uri' text version =>
    exact h.replace uri' (.openDocument uri' text version) fun hne =>
      Workspace.entry?_openDocument_of_ne hne text version
  | closeDocument uri' =>
    exact h.replace uri' (.closeDocument uri') Workspace.entry?_closeDocument_of_ne
  | revise uri' version r =>
    rw [Flight.serve]
    split
    next =>
      have hlinked := h.enqueue version r
      exact ⟨hlinked.uri_eq, hlinked.entry⟩
    next hlocks =>
      exact h.serveInWorkspace _ fun hatt =>
        Workspace.entry?_revise_of_ne (h.ne_of_not_locks hlocks hatt) version r
  | version uri' => exact h.serveInWorkspace (.version uri') fun _ => rfl
  | existing uri' => exact h.serveInWorkspace (.existing uri') fun _ => rfl

end Flight

/-! ## Following a run -/

namespace Flight

variable {f : Flight} {s₀ : Traffic} {as : List Report} {p : Option Parse} {uri : String}

/-- The document of a flight, with the edits that wait and the parse `p`. -/
def traffic (f : Flight) (p : Option Parse) : Traffic :=
  { entry := f.entry
    waiting := f.waiting.filterMap Except.toOption
    parse := p
    parses := f.workspace.parses }

/-- The flight of the document `uri` is where a run from `s₀` with the reports `as` leads to. -/
structure Follows (s₀ : Traffic) (as : List Report) (uri : String) (p : Option Parse)
    (f : Flight) : Prop where
  /-- The run. -/
  trace : Trace Traffic.Step s₀ as (f.traffic p)
  /-- The edits that were refused at once were told so. -/
  refused : ∀ {err}, .error err ∈ f.waiting → ∃ edit, .revised edit (.error err) ∈ as
  /-- The document is the one of its name, or it is closed. -/
  linked : f.Linked uri

namespace Follows

theorem refused_append (h : f.Follows s₀ as uri p) {err : WorkspaceError}
    (herr : .error err ∈ f.waiting) (as' : List Report) :
    ∃ edit, .revised edit (.error err) ∈ as ++ as' := by
  obtain ⟨edit, hedit⟩ := h.refused herr
  exact ⟨edit, List.mem_append_left as' hedit⟩

theorem serveInWorkspace (h : f.Follows s₀ as uri p) (request : Workspace.Request)
    (hentry : f.attached = true →
      Workspace.entry? (f.workspace.serve request).2 uri = f.workspace.entry? uri) :
    (f.serveInWorkspace request).Follows s₀ as uri p where
  trace := by
    have htraffic : (f.serveInWorkspace request).traffic p = f.traffic p := by
      simp only [traffic, Flight.serveInWorkspace, Workspace.serve_parses]
    rw [htraffic]
    exact h.trace
  refused := h.refused
  linked := h.linked.serveInWorkspace request hentry

/-- An edit of the locked document publishes its version, or is refused. -/
theorem enqueue (h : f.Follows s₀ as uri p) (version : Int) (r : Revision) :
    ∃ as', (f.enqueue version r).Follows s₀ as' uri p := by
  have hlinked := h.linked.enqueue version r
  unfold Flight.enqueue at hlinked ⊢
  rcases hpub : f.entry.publish version with err | e
  · have hstep : Traffic.Step (f.traffic p) (.revised ⟨version, r⟩ (.error err)) (f.traffic p) :=
      .refuse hpub
    have htraffic : traffic { f with waiting := f.waiting ++ [.error err] } p = f.traffic p := by
      simp only [traffic, List.filterMap_append]
      exact congrArg (Traffic.mk _ · _ _ _) (List.append_nil _)
    refine ⟨as ++ [.revised ⟨version, r⟩ (.error err)], ?_, ?_, by rwa [hpub] at hlinked⟩
    · dsimp only
      rw [htraffic]
      exact h.trace.snoc hstep
    · intro err' herr
      rcases List.mem_append.mp herr with herr | herr
      · exact h.refused_append herr _
      · obtain rfl := Except.error.inj (List.mem_singleton.mp herr)
        exact ⟨_, List.mem_append_right _ (List.mem_singleton_self _)⟩
  · have hstep := @Traffic.Step.publish (f.traffic p) ⟨version, r⟩ e hpub
    refine ⟨as ++ [.published ⟨version, r⟩], ?_, ?_, by rwa [hpub] at hlinked⟩
    · simp only [traffic, setEntry_entry, setEntry_parses, List.filterMap_append]
      exact h.trace.snoc hstep
    · intro err' herr
      rcases List.mem_append.mp herr with herr | herr
      · exact h.refused_append herr _
      · cases List.mem_singleton.mp herr

theorem detach (h : f.Follows s₀ as uri p) : f.detach.Follows s₀ (as ++ [.silent]) uri p where
  trace := h.trace.snoc .close
  refused herr := h.refused_append herr _
  linked := h.linked.detach

/-- A request that closes the locked document, or puts another one in its place. -/
theorem replace (h : f.Follows s₀ as uri p) (uri' : String) (request : Workspace.Request)
    (hentry : uri ≠ uri' →
      Workspace.entry? (f.workspace.serve request).2 uri = f.workspace.entry? uri) :
    ∃ as', ((if f.locks uri' then f.detach else f).serveInWorkspace request).Follows
      s₀ as' uri p := by
  split
  next => exact ⟨_, h.detach.serveInWorkspace request nofun⟩
  next hlocks =>
    exact ⟨as, h.serveInWorkspace request fun hatt => hentry (h.linked.ne_of_not_locks hlocks hatt)⟩

/-- A request that is served inside a poll. -/
theorem serve (h : f.Follows s₀ as uri p) (request : Workspace.Request) :
    ∃ as', (f.serve request).Follows s₀ as' uri p := by
  cases request with
  | openDocument uri' text version =>
    exact h.replace uri' (.openDocument uri' text version) fun hne =>
      Workspace.entry?_openDocument_of_ne hne text version
  | closeDocument uri' =>
    exact h.replace uri' (.closeDocument uri') Workspace.entry?_closeDocument_of_ne
  | revise uri' version r =>
    rw [Flight.serve]
    split
    next hlocks =>
      obtain ⟨as', h'⟩ := h.enqueue version r
      exact ⟨as', h'.trace, h'.refused, h'.linked.uri_eq, h'.linked.entry⟩
    next hlocks =>
      exact ⟨as, h.serveInWorkspace _ fun hatt =>
        Workspace.entry?_revise_of_ne (h.linked.ne_of_not_locks hlocks hatt) version r⟩
  | version uri' => exact ⟨as, h.serveInWorkspace (.version uri') fun _ => rfl⟩
  | existing uri' => exact ⟨as, h.serveInWorkspace (.existing uri') fun _ => rfl⟩

theorem serveAll (h : f.Follows s₀ as uri p) : ∀ requests : List Workspace.Request,
    ∃ as', (requests.foldl Flight.serve f).Follows s₀ as' uri p := by
  intro requests
  induction requests generalizing f as with
  | nil => exact ⟨as, h⟩
  | cons request requests ih =>
    obtain ⟨as', h'⟩ := h.serve request
    exact ih h'

theorem step (h : f.Follows s₀ as uri p) {a : Report} {p' : Option Parse}
    (hstep : Traffic.Step (f.traffic p) a (f.traffic p')) :
    f.Follows s₀ (as ++ [a]) uri p' where
  trace := h.trace.snoc hstep
  refused herr := h.refused_append herr _
  linked := h.linked

theorem setPolls (h : f.Follows s₀ as uri p) (polls : Nat) :
    Follows s₀ as uri p { f with polls := polls } :=
  ⟨h.trace, h.refused, h.linked.uri_eq, h.linked.entry⟩

/-- The steps of a parse. It stops before the poll at which it gives up, or has nothing left to
do. -/
theorem runFrom (a : Asker) (b : Buffer) :
    ∀ {f : Flight} {as : List Report} {done : List Event} (steps : List (Step Event)),
      f.Follows s₀ as uri (some ⟨b, done.reverse, steps⟩) →
      ∃ as' rest, (Step.runFrom (a.check b.version) f done steps).state.Follows s₀ as' uri
          (some ⟨b, (Step.runFrom (a.check b.version) f done steps).results, rest⟩) ∧
        if (Step.runFrom (a.check b.version) f done steps).cancelled then
          ∃ steps', rest = .poll :: steps'
        else rest = []
  | f, as, done, [], h => ⟨as, [], h, rfl⟩
  | f, as, done, .yield e :: steps, h => by
    have hemit : Traffic.Step (f.traffic (some ⟨b, done.reverse, .yield e :: steps⟩)) .silent
        (f.traffic (some ⟨b, (e :: done).reverse, steps⟩)) := by
      rw [List.reverse_cons]
      exact .emit rfl
    exact (h.step hemit).runFrom a b steps
  | f, as, done, .poll :: steps, h => by
    rcases hout : f.entry.isOutdated b.version with _ | _
    · have hcheck := a.check_of_wanted hout
      rcases hanswer : a.answers f.polls with _ | _
      · rw [hanswer] at hcheck
        have hpass : Traffic.Step (f.traffic (some ⟨b, done.reverse, .poll :: steps⟩)) .silent
            (f.traffic (some ⟨b, done.reverse, steps⟩)) := .pass rfl hout
        obtain ⟨as', h'⟩ := ((h.step hpass).setPolls (f.polls + 1)).serveAll (a.meanwhile f.polls)
        simp only [Step.runFrom, hcheck]
        exact h'.runFrom a b steps
      · rw [hanswer] at hcheck
        obtain ⟨as', h'⟩ := (h.setPolls (f.polls + 1)).serveAll (a.meanwhile f.polls)
        simp only [Step.runFrom, hcheck]
        exact ⟨as', _, h', steps, rfl⟩
    · simp only [Step.runFrom, a.check_of_outdated hout]
      exact ⟨as, _, h, steps, rfl⟩

end Follows

/-! ## The edits that waited -/

/-- The edits that waited are carried out one by one. Each answer is reported on the way, or was
given before. -/
theorem exists_trace_commitAll (parses : Nat) :
    ∀ {f : Flight}, f.Linked uri → ∀ edits : List (Except WorkspaceError WaitingEdit),
      (f.commitAll edits).2.Linked uri ∧
      ∃ as, Trace Traffic.Step
          { entry := f.entry, waiting := edits.filterMap Except.toOption, parses := parses } as
          { entry := (f.commitAll edits).2.entry, parses := parses } ∧
        ∀ answer ∈ (f.commitAll edits).1, (∃ edit, .revised edit answer ∈ as) ∨
          ∃ err, answer = .error err ∧ .error err ∈ edits
  | f, hf, [] => ⟨hf, [], .nil, nofun⟩
  | f, hf, .error err :: edits => by
    obtain ⟨hlinked, as, htrace, has⟩ := exists_trace_commitAll parses hf edits
    refine ⟨hlinked, as, htrace, fun answer hanswer => ?_⟩
    rcases List.mem_cons.mp hanswer with rfl | hanswer
    · exact Or.inr ⟨err, rfl, List.mem_cons_self⟩
    · rcases has answer hanswer with hrevised | ⟨err', rfl, hmem⟩
      · exact Or.inl hrevised
      · exact Or.inr ⟨err', rfl, List.mem_cons_of_mem _ hmem⟩
  | f, hf, .ok edit :: edits => by
    have hf' := hf.setEntry (f.entry.commit_closed edit.version edit.revision)
    obtain ⟨hlinked, as, htrace, has⟩ := exists_trace_commitAll parses hf' edits
    rw [setEntry_entry] at htrace
    have hstep := @Traffic.Step.commit
      { entry := f.entry, waiting := edit :: edits.filterMap Except.toOption, parses := parses }
      edit [] (edits.filterMap Except.toOption) rfl rfl
    refine ⟨hlinked, _, htrace.cons hstep, fun answer hanswer => ?_⟩
    rcases List.mem_cons.mp hanswer with rfl | hanswer
    · exact Or.inl ⟨edit, List.mem_cons_self⟩
    · rcases has answer hanswer with ⟨edit', hrevised⟩ | ⟨err', rfl, hmem⟩
      · exact Or.inl ⟨edit', List.mem_cons_of_mem _ hrevised⟩
      · exact Or.inr ⟨err', rfl, List.mem_cons_of_mem _ hmem⟩

end Flight

/-! ## The whole flight -/

namespace Flight

variable {f : Flight} {uri : String}

/-- The flight of a document `e` that was just locked. -/
def ofEntry (w : Workspace) (uri : String) (e : Entry) : Flight := ⟨w, uri, e, true, [], 0, []⟩

/-- Store a parsed form. -/
def store (f : Flight) (p : Parsed) : Flight :=
  { f with workspace.parses := f.workspace.parses + 1 }.setEntry { f.entry with parsed := some p }

/-- Parse the document of a flight. The edits that wait are not carried out yet. -/
def parse (f : Flight) (a : Asker) : Except WorkspaceError Parsed × Flight :=
  match Document.read (a.check f.entry.buffer.version) f f.entry.buffer with
  | (some d, f') => (.ok ⟨f'.workspace.parses, d⟩, f'.store ⟨f'.workspace.parses, d⟩)
  | (none, f') => (.error .cancelled, f')

/-- What is told once the edits that waited are carried out. -/
def retrieval (answer : Except WorkspaceError Parsed) (f : Flight) : Retrieval :=
  { answer := answer
    polls := (f.commitAll f.waiting).2.polls
    replies := (f.commitAll f.waiting).2.replies
    late := (f.commitAll f.waiting).1
    workspace := (f.commitAll f.waiting).2.workspace }

@[simp] theorem store_entry (f : Flight) (p : Parsed) :
    (f.store p).entry = { f.entry with parsed := some p } :=
  setEntry_entry _ _

@[simp] theorem store_polls (f : Flight) (p : Parsed) : (f.store p).polls = f.polls :=
  setEntry_polls _ _

theorem Linked.store (h : f.Linked uri) (p : Parsed) : (f.store p).Linked uri := by
  have hcounted : Linked uri { f with workspace.parses := f.workspace.parses + 1 } :=
    ⟨h.uri_eq, h.entry⟩
  exact hcounted.setEntry rfl

end Flight

namespace Workspace

variable {w : Workspace} {uri : String} {e : Entry}

/-- A parse, and then the edits that waited for its end. -/
theorem parse_eq (w : Workspace) (uri : String) (e : Entry) (a : Asker) :
    w.parse uri e a =
      Flight.retrieval ((Flight.ofEntry w uri e).parse a).1
        ((Flight.ofEntry w uri e).parse a).2 := by
  unfold parse Flight.parse Flight.ofEntry
  dsimp only
  rcases Document.read (a.check e.buffer.version) ⟨w, uri, e, true, [], 0, []⟩ e.buffer with
    ⟨_ | d, f⟩
  · rfl
  · rfl

/-- The parse of a flight ends, and the edits that waited are carried out after it. -/
theorem exists_follows_parse (he : w.entry? uri = some e) (hp : e.parsed = none) (a : Asker) :
    ∃ as f answer, .retrieved answer ∈ as ∧
      Flight.Follows { entry := e, parses := w.parses } as uri none f ∧
      w.parse uri e a = Flight.retrieval answer f := by
  have hstart : Flight.Follows { entry := e, parses := w.parses } [.silent] uri
      (some ⟨e.buffer, [], Event.scan e.buffer.text⟩) (.ofEntry w uri e) :=
    ⟨.single (.lock rfl hp), nofun, rfl, Or.inl ⟨rfl, he⟩⟩
  obtain ⟨as, rest, h, hend⟩ :=
    @Flight.Follows.runFrom _ _ a e.buffer _ _ [] (Event.scan e.buffer.text) hstart
  unfold parse Document.read Step.run
  rw [Flight.ofEntry] at h hend
  generalize Step.runFrom (a.check e.buffer.version) _ [] _ = o at h hend ⊢
  obtain ⟨results, cancelled, f⟩ := o
  cases cancelled with
  | false =>
    obtain rfl : rest = [] := hend
    have hstore := @Traffic.Step.store (f.traffic (some ⟨e.buffer, results, []⟩)) _ _ _ rfl rfl
    refine ⟨_, f.store ⟨f.workspace.parses, .ofEvents e.buffer results⟩, _,
      List.mem_append_right as (List.mem_singleton_self _), ⟨?_, ?_, h.linked.store _⟩, rfl⟩
    · simp only [Flight.traffic, Flight.store, Flight.setEntry_entry, Flight.setEntry_waiting,
        Flight.setEntry_parses]
      exact h.trace.snoc hstore
    · intro err herr
      rw [Flight.store, Flight.setEntry_waiting] at herr
      exact h.refused_append herr _
  | true =>
    obtain ⟨steps, rfl⟩ := hend
    have hgiveUp : Traffic.Step (f.traffic (some ⟨e.buffer, results, .poll :: steps⟩))
        (.retrieved (.error .cancelled)) (f.traffic none) := .giveUp rfl
    exact ⟨_, f, _, List.mem_append_right as (List.mem_singleton_self _), h.step hgiveUp, rfl⟩

/-- A parse with everything that is served meanwhile is a run on its document. Its answers are
reported on the way, and the document it leaves is the one of its name or is closed. -/
theorem exists_trace_parse (he : w.entry? uri = some e) (hp : e.parsed = none) (a : Asker) :
    ∃ as s, Trace Traffic.Step { entry := e, parses := w.parses } as s ∧
      s.waiting = [] ∧ s.parse = none ∧
      .retrieved (w.parse uri e a).answer ∈ as ∧
      (∀ answer ∈ (w.parse uri e a).late, ∃ edit, .revised edit answer ∈ as) ∧
      ((w.parse uri e a).workspace.entry? uri = some s.entry ∨ s.entry.closed = true) := by
  obtain ⟨as, f, answer, hanswer, h, hparse⟩ := exists_follows_parse he hp a
  obtain ⟨hlinked, as', htrace, hlate⟩ :=
    Flight.exists_trace_commitAll f.workspace.parses h.linked f.waiting
  rw [hparse]
  refine ⟨as ++ as', _, h.trace.append htrace, rfl, rfl, List.mem_append_left as' hanswer, ?_, ?_⟩
  · intro answer' hanswer'
    rcases hlate answer' hanswer' with ⟨edit, hedit⟩ | ⟨err, rfl, herr⟩
    · exact ⟨edit, List.mem_append_right as hedit⟩
    · exact h.refused_append herr as'
  · rcases hlinked.entry with ⟨-, hentry⟩ | ⟨-, hclosed⟩
    · exact Or.inl hentry
    · exact Or.inr hclosed

end Workspace

end DotProperties
