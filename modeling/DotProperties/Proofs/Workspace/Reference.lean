import DotProperties.Proofs.Workspace.Basic

/-!
# A store to compare with

Requests that do not overlap are answered as if a workspace were a plain table. A `Store`
keeps the text and the version of each open document, and whether it was parsed since its
last edit; it parses the text anew whenever a parsed form is asked for. A request that fails
leaves it as it is, since `Store.attempt` then gives no store at all.

Between requests every document is at rest (`Entry.AtRest`) : it is not closed, the version
published last is that of its buffer, and a parsed form that it keeps is that of its buffer.
A workspace refines a store (`Workspace.Refines`) if all of its documents are at rest and the
store has the record of each of them. Every request preserves this and is answered alike
(`Workspace.Refines.perform`), and so is every list of requests
(`Workspace.respond_eq_store`).
-/

namespace DotProperties

variable {R : Type}

/-! ## Requests and answers -/

/-- A request that is served before the next one comes. -/
inductive Operation (R : Type) where
  | openDocument (uri : String) (text : Text) (version : Int)
  | closeDocument (uri : String)
  | revise (uri : String) (version : Int) (revision : Revision)
  /-- Ask for the parsed form. -/
  | parsed (uri : String)
  /-- Ask for the parsed form, with an answer to each poll of the parse. -/
  | retrieve (uri : String) (answers : Nat → Bool)
  /-- Ask for the parsed form that is there. -/
  | existing (uri : String)
  /-- Ask what `f` makes of the parsed form. -/
  | view (uri : String) (f : Document → R)
  | version (uri : String)
  | buffer (uri : String)
  | uris

/-- The answer to a request that does not fail. -/
inductive Answer (R : Type) where
  | opened
  | closed (wasOpen : Bool)
  | revised
  | parsed (document : Document)
  | existing (document? : Option Document)
  | viewed (result : R)
  | version (version? : Option Int)
  | buffer (buffer? : Option Buffer)
  | uris (names : List String)

/-- The answers to requests that come one after another. -/
def respond {σ ω α : Type} (perform : σ → ω → α × σ) : σ → List ω → List α
  | _, [] => []
  | s, op :: ops => (perform s op).1 :: respond perform (perform s op).2 ops

/-- Serve a request in a workspace. -/
def Workspace.perform (w : Workspace) :
    Operation R → Except WorkspaceError (Answer R) × Workspace
  | .openDocument uri text version => (.ok .opened, w.openDocument uri text version)
  | .closeDocument uri => (.ok (.closed (w.closeDocument uri).1), (w.closeDocument uri).2)
  | .revise uri version r =>
    ((w.revise uri version r).1.map fun _ => .revised, (w.revise uri version r).2)
  | .parsed uri => ((w.parsed uri).1.map fun p => .parsed p.document, (w.parsed uri).2)
  | .retrieve uri answers =>
    let r := w.retrieve uri { answers := answers }
    (r.answer.map fun p => .parsed p.document, r.workspace)
  | .existing uri => (.ok (.existing ((w.existing? uri).map Parsed.document)), w)
  | .view uri f => ((w.parsed uri).1.map fun p => .viewed (f p.document), (w.parsed uri).2)
  | .version uri => (.ok (.version (w.version? uri)), w)
  | .buffer uri => (.ok (.buffer (w.buffer? uri)), w)
  | .uris => (.ok (.uris w.uris), w)

/-! ## The store -/

/-- What a store keeps of a document. -/
structure Record where
  /-- The text. -/
  text : Text
  /-- Its version. -/
  version : Int
  /-- The text was parsed. -/
  parsed : Bool

namespace Record

/-- The buffer of a record. -/
def buffer (r : Record) (uri : String) : Buffer := ⟨uri, r.text, r.version⟩

/-- The text, parsed anew. -/
def document (r : Record) (uri : String) : Document := .ofBuffer (r.buffer uri)

/-- The text, parsed anew under the answers to the polls, which do not matter if it was parsed
before. -/
def read (r : Record) (uri : String) (answers : Nat → Bool) : Except WorkspaceError Document :=
  if r.parsed then .ok (r.document uri)
  else
    match (Document.read (.answering answers) 0 (r.buffer uri)).1 with
    | some d => .ok d
    | none => .error .cancelled

/-- The record after an edit, which has to be newer and to fit the text. -/
def revise (r : Record) (uri : String) (version : Int) (revision : Revision) :
    Except WorkspaceError Record :=
  if r.version < version then
    match revision.edit r.text with
    | .ok text => .ok ⟨text, version, false⟩
    | .error err => .error (.badLocation err)
  else .error (.staleVersion uri version r.version)

end Record

/-- The records of the open documents, in the order of their names. -/
abbrev Store := Std.TreeMap String Record

namespace Store

/-- The record of a name, or the reason why there is none. -/
def record (s : Store) (uri : String) : Except WorkspaceError Record :=
  match s[uri]? with
  | some r => .ok r
  | none => .error (.unknownDocument uri)

/-- The answer to a request and the store after it, or why the request fails. -/
def attempt (s : Store) : Operation R → Except WorkspaceError (Answer R × Store)
  | .openDocument uri text version => .ok (.opened, s.insert uri ⟨text, version, false⟩)
  | .closeDocument uri => .ok (.closed (s.contains uri), s.erase uri)
  | .revise uri version revision => do
    let r ← s.record uri
    let r' ← r.revise uri version revision
    return (.revised, s.insert uri r')
  | .parsed uri => do
    let r ← s.record uri
    return (.parsed (r.document uri), s.insert uri { r with parsed := true })
  | .retrieve uri answers => do
    let r ← s.record uri
    let d ← r.read uri answers
    return (.parsed d, s.insert uri { r with parsed := true })
  | .existing uri =>
    .ok (.existing ((s[uri]?.filter Record.parsed).map fun r => r.document uri), s)
  | .view uri f => do
    let r ← s.record uri
    return (.viewed (f (r.document uri)), s.insert uri { r with parsed := true })
  | .version uri => .ok (.version (s[uri]?.map Record.version), s)
  | .buffer uri => .ok (.buffer (s[uri]?.map fun r => r.buffer uri), s)
  | .uris => .ok (.uris s.keys, s)

/-- Serve a request. One that fails changes nothing. -/
def perform (s : Store) (op : Operation R) : Except WorkspaceError (Answer R) × Store :=
  match s.attempt op with
  | .ok (answer, s') => (.ok answer, s')
  | .error err => (.error err, s)

variable {s s' : Store} {op : Operation R}

theorem perform_of_ok {answer : Answer R} (h : s.attempt op = .ok (answer, s')) :
    s.perform op = (.ok answer, s') := by
  rw [perform, h]

theorem perform_of_error {err : WorkspaceError} (h : s.attempt op = .error err) :
    s.perform op = (.error err, s) := by
  rw [perform, h]

end Store

/-! ## Documents at rest -/

namespace Entry

variable {e : Entry} {uri : String} {v : Int} {r : Revision}

/-- No request on the document is under way. -/
structure AtRest (e : Entry) (uri : String) : Prop where
  /-- The document is open. -/
  not_closed : e.closed = false
  /-- The document stands under its own name. -/
  uri_eq : e.buffer.uri = uri
  /-- The version published last is that of the buffer. -/
  published_eq : e.published = e.buffer.version
  /-- What is kept is the parsed form of the buffer. -/
  document_eq : ∀ {p}, e.parsed = some p → p.document = .ofBuffer e.buffer

/-- What a store keeps of a document. -/
def record (e : Entry) : Record := ⟨e.buffer.text, e.buffer.version, e.parsed.isSome⟩

theorem atRest_ofBuffer (b : Buffer) : (ofBuffer b).AtRest b.uri where
  not_closed := rfl
  uri_eq := rfl
  published_eq := rfl
  document_eq h := by cases h

namespace AtRest

theorem buffer_eq (h : e.AtRest uri) : e.buffer = e.record.buffer uri := by
  rw [Record.buffer, ← h.uri_eq]
  rfl

theorem store (h : e.AtRest uri) {p : Parsed} (hp : p.document = .ofBuffer e.buffer) :
    { e with parsed := some p }.AtRest uri where
  not_closed := h.not_closed
  uri_eq := h.uri_eq
  published_eq := h.published_eq
  document_eq hq := by
    obtain rfl := Option.some.inj hq
    exact hp

theorem existing?_eq (h : e.AtRest uri) : e.existing? = e.parsed := by
  rcases hp : e.parsed with _ | p
  · simp [existing?, hp]
  · refine existing?_eq_some.mpr ⟨hp, ?_⟩
    rw [h.document_eq hp, Document.ofBuffer_buffer, h.published_eq]

/-- A document that takes an edit is as one that was opened with the new text, and one that
does not stays as it is. -/
theorem revise_eq (h : e.AtRest uri) (v : Int) (r : Revision) :
    e.revise v r =
      match e.record.revise uri v r with
      | .ok r' => (.ok (), .ofBuffer (r'.buffer uri))
      | .error err => (.error err, e) := by
  have hpub := h.published_eq
  rcases Int.lt_or_le e.buffer.version v with hlt | hle
  · have hrecord : e.record.revise uri v r =
        match r.edit e.buffer.text with
        | .ok text => .ok ⟨text, v, false⟩
        | .error err => .error (.badLocation err) := if_pos hlt
    have happly := r.apply_eq_map e.buffer v
    rw [hrecord, Entry.revise, publish_of_lt (hpub ▸ hlt)]
    rcases hedit : r.edit e.buffer.text with err | text
    · rw [hedit] at happly
      have hcommit := commit_of_error (e := { e with published := v }) hlt happly
      rw [if_pos rfl] at hcommit
      dsimp only at hcommit ⊢
      rw [hcommit, ← hpub]
    · rw [hedit] at happly
      have hcommit := commit_of_ok (e := { e with published := v }) hlt happly
      dsimp only at hcommit ⊢
      rw [hcommit, h.not_closed, Buffer.setText, h.uri_eq]
      rfl
  · have hrecord : e.record.revise uri v r =
        .error (.staleVersion uri v e.buffer.version) := if_neg (Int.not_lt.mpr hle)
    rw [hrecord, Entry.revise, publish_of_le (hpub ▸ hle), h.uri_eq, hpub]

end AtRest

end Entry

/-! ## The workspace and the store -/

theorem Store.getElem?_insert (s : Store) (uri : String) (r : Record) (uri' : String) :
    (s.insert uri r)[uri']? = if uri' = uri then some r else s[uri']? := by
  rw [Std.TreeMap.getElem?_insert]
  simp only [Std.LawfulEqCmp.compare_eq_iff_eq, @eq_comm _ uri]

theorem Store.getElem?_erase (s : Store) (uri uri' : String) :
    (s.erase uri)[uri']? = if uri' = uri then none else s[uri']? := by
  rw [Std.TreeMap.getElem?_erase]
  simp only [Std.LawfulEqCmp.compare_eq_iff_eq, @eq_comm _ uri]

theorem Record.read_of_never (r : Record) (uri : String) :
    r.read uri (fun _ => false) = .ok (r.document uri) := by
  unfold read
  split
  next => rfl
  next => rw [Document.read_of_never fun _ => rfl]; rfl

theorem Record.exists_eq_of_revise {r r' : Record} {uri : String} {v : Int} {revision : Revision}
    (h : r.revise uri v revision = .ok r') : ∃ text, r' = ⟨text, v, false⟩ := by
  unfold revise at h
  split at h
  next =>
    split at h
    next text _ => exact ⟨text, (Except.ok.inj h).symm⟩
    next => cases h
  next => cases h

theorem Store.pairwise_keys (s : Store) : s.keys.Pairwise (· < ·) :=
  s.ordered_keys.imp fun hlt => compareOfLessAndEq_eq_lt.mp hlt

namespace Workspace

/-- All documents are at rest, and the store has the record of each of them. -/
structure Refines (w : Workspace) (s : Store) : Prop where
  /-- Each name stands once. -/
  distinct : w.Distinct
  /-- The documents are at rest. -/
  atRest : ∀ {uri e}, w.entry? uri = some e → e.AtRest uri
  /-- The store has their records. -/
  record : ∀ uri, s[uri]? = (w.entry? uri).map Entry.record

theorem refines_empty : empty.Refines ∅ where
  distinct := distinct_empty
  atRest h := by cases h
  record uri := Std.TreeMap.getElem?_emptyc

namespace Refines

variable {w : Workspace} {s : Store} {uri : String} {e : Entry}

theorem record_eq_ok (h : w.Refines s) (he : w.entry? uri = some e) :
    s.record uri = .ok e.record := by
  rw [Store.record, h.record, he]
  rfl

theorem record_eq_error (h : w.Refines s) (he : w.entry? uri = none) :
    s.record uri = .error (.unknownDocument uri) := by
  rw [Store.record, h.record, he]
  rfl

theorem getElem?_eq (h : w.Refines s) (he : w.entry? uri = some e) (uri' : String) :
    s[uri']? = if uri' = uri then some e.record else s[uri']? := by
  split
  next heq =>
    rw [heq, h.record, he]
    rfl
  next => rfl

theorem insert_of_getElem? (h : w.Refines s) (he : e.AtRest uri) {s' : Store}
    (hs : ∀ uri', s'[uri']? = if uri' = uri then some e.record else s[uri']?) :
    (w.insert uri e).Refines s' where
  distinct := h.distinct.insert uri e
  atRest {uri' e'} he' := by
    rw [entry?_insert] at he'
    split at he'
    next heq =>
      obtain rfl := Option.some.inj he'
      exact heq ▸ he
    next => exact h.atRest he'
  record uri' := by
    rw [hs, entry?_insert, h.record]
    split
    next => rfl
    next => rfl

theorem insert (h : w.Refines s) (he : e.AtRest uri) :
    (w.insert uri e).Refines (s.insert uri e.record) :=
  h.insert_of_getElem? he (s.getElem?_insert uri e.record)

/-- A document that is put back as it was changes nothing. -/
theorem insert_same (h : w.Refines s) (he : w.entry? uri = some e) :
    (w.insert uri e).Refines s :=
  h.insert_of_getElem? (h.atRest he) (h.getElem?_eq he)

/-- A record that is put back as it was changes nothing. -/
theorem insert_record (h : w.Refines s) (he : w.entry? uri = some e) :
    w.Refines (s.insert uri e.record) where
  distinct := h.distinct
  atRest := h.atRest
  record uri' := by
    rw [Store.getElem?_insert, ← h.getElem?_eq he]
    exact h.record uri'

theorem erase (h : w.Refines s) (uri : String) : (w.erase uri).Refines (s.erase uri) where
  distinct := h.distinct.erase uri
  atRest {uri' e'} he' := by
    rw [entry?_erase] at he'
    split at he'
    next => cases he'
    next => exact h.atRest he'
  record uri' := by
    rw [Store.getElem?_erase, entry?_erase, h.record]
    split
    next => rfl
    next => rfl

/-! ## Serving a request -/

/-- A request for the parsed form of a document reads its record, and sets its flag if it is
not cancelled. -/
theorem retrieve_of_some (h : w.Refines s) (he : w.entry? uri = some e) (answers : Nat → Bool) :
    match e.record.read uri answers with
    | .ok d => ∃ p, (w.retrieve uri { answers := answers }).answer = .ok p ∧ p.document = d ∧
        (w.retrieve uri { answers := answers }).workspace.Refines
          (s.insert uri { e.record with parsed := true })
    | .error err => (w.retrieve uri { answers := answers }).answer = .error err ∧
        (w.retrieve uri { answers := answers }).workspace = w := by
  have hrest := h.atRest he
  rcases hp : e.parsed with _ | p
  · have hread : e.record.read uri answers =
        match (Document.read (.answering answers) 0 e.buffer).1 with
        | some d => .ok d
        | none => .error .cancelled := by
      rw [Record.read, ← hrest.buffer_eq, Entry.record, hp]
      rfl
    rw [retrieve_of_unparsed he hp,
      parse_of_undisturbed hrest.not_closed hrest.published_eq, hread]
    rcases hd : Document.read (.answering answers) 0 e.buffer with ⟨_ | d, polls⟩
    · exact ⟨rfl, rfl⟩
    · have hcounted : { w with parses := w.parses + 1 }.Refines s :=
        ⟨h.distinct, h.atRest, h.record⟩
      have hdocument : d = .ofBuffer e.buffer := Document.eq_ofBuffer_of_read (by rw [hd])
      exact ⟨⟨w.parses, d⟩, rfl, rfl, hcounted.insert (hrest.store hdocument)⟩
  · have hrecord : { e.record with parsed := true } = e.record := by simp [Entry.record, hp]
    have hread : e.record.read uri answers = .ok (e.record.document uri) := by
      rw [← hrecord]
      rfl
    rw [retrieve_of_parsed he hp, hread, hrecord]
    refine ⟨p, rfl, ?_, h.insert_record he⟩
    rw [hrest.document_eq hp, hrest.buffer_eq]
    rfl

/-- The same answer, and a workspace that refines the store. -/
def Agree {α : Type} (x : α × Workspace) (y : α × Store) : Prop := x.1 = y.1 ∧ x.2.Refines y.2

theorem revise (h : w.Refines s) (uri : String) (version : Int) (r : Revision) :
    Agree (w.perform (.revise uri version r : Operation R))
      (s.perform (.revise uri version r)) := by
  rcases he : w.entry? uri with _ | e
  · have hattempt : s.attempt (.revise uri version r : Operation R) =
        .error (.unknownDocument uri) := by
      simp only [Store.attempt, h.record_eq_error he, bind, Except.bind]
    rw [perform, revise_of_unknown he, Store.perform_of_error hattempt]
    exact ⟨rfl, h⟩
  · rw [perform, revise_of_some he, (h.atRest he).revise_eq]
    rcases hr : e.record.revise uri version r with err | r'
    · have hattempt : s.attempt (.revise uri version r : Operation R) = .error err := by
        simp only [Store.attempt, h.record_eq_ok he, bind, Except.bind, hr]
      rw [Store.perform_of_error hattempt]
      exact ⟨rfl, h.insert_same he⟩
    · have hattempt : s.attempt (.revise uri version r : Operation R) =
          .ok (.revised, s.insert uri r') := by
        simp only [Store.attempt, h.record_eq_ok he, bind, Except.bind, hr, pure, Except.pure]
      obtain ⟨text, rfl⟩ := Record.exists_eq_of_revise hr
      rw [Store.perform_of_ok hattempt]
      exact ⟨rfl, h.insert (Entry.atRest_ofBuffer ⟨uri, text, version⟩)⟩

theorem retrieve (h : w.Refines s) (uri : String) (answers : Nat → Bool) :
    Agree (w.perform (.retrieve uri answers : Operation R))
      (s.perform (.retrieve uri answers)) := by
  rw [perform]
  rcases he : w.entry? uri with _ | e
  · have hattempt : s.attempt (.retrieve uri answers : Operation R) =
        .error (.unknownDocument uri) := by
      simp only [Store.attempt, h.record_eq_error he, bind, Except.bind]
    rw [retrieve_of_unknown he, Store.perform_of_error hattempt]
    exact ⟨rfl, h⟩
  · have hsome := h.retrieve_of_some he answers
    rcases hread : e.record.read uri answers with err | d
    · have hattempt : s.attempt (.retrieve uri answers : Operation R) = .error err := by
        simp only [Store.attempt, h.record_eq_ok he, bind, Except.bind, hread]
      rw [hread] at hsome
      obtain ⟨hanswer, hw⟩ := hsome
      rw [Store.perform_of_error hattempt]
      exact ⟨by rw [hanswer]; rfl, by rw [hw]; exact h⟩
    · have hattempt : s.attempt (.retrieve uri answers : Operation R) =
          .ok (.parsed d, s.insert uri { e.record with parsed := true }) := by
        simp only [Store.attempt, h.record_eq_ok he, bind, Except.bind, hread, pure, Except.pure]
      rw [hread] at hsome
      obtain ⟨p, hanswer, rfl, hw⟩ := hsome
      rw [Store.perform_of_ok hattempt]
      exact ⟨by rw [hanswer]; rfl, hw⟩

theorem parsed_of_some (h : w.Refines s) (he : w.entry? uri = some e) :
    ∃ p, (w.parsed uri).1 = .ok p ∧ p.document = e.record.document uri ∧
      (w.parsed uri).2.Refines (s.insert uri { e.record with parsed := true }) := by
  have hsome := h.retrieve_of_some he fun _ => false
  rw [Record.read_of_never] at hsome
  exact hsome

/-- A request for what `f` makes of the parsed form. -/
theorem parsed_map (h : w.Refines s) {op : Operation R} {uri : String} {f : Document → Answer R}
    (hw : w.perform op = ((w.parsed uri).1.map fun p => f p.document, (w.parsed uri).2))
    (hs : s.attempt op = (s.record uri).bind fun r =>
      .ok (f (r.document uri), s.insert uri { r with parsed := true })) :
    Agree (w.perform op) (s.perform op) := by
  rw [hw]
  rcases he : w.entry? uri with _ | e
  · rw [h.record_eq_error he] at hs
    rw [Store.perform_of_error hs, parsed, retrieve_of_unknown he]
    exact ⟨rfl, h⟩
  · rw [h.record_eq_ok he] at hs
    obtain ⟨p, hanswer, hdocument, hrefines⟩ := h.parsed_of_some he
    rw [Store.perform_of_ok hs, hanswer]
    exact ⟨by rw [← hdocument]; rfl, hrefines⟩

theorem existing?_eq (h : w.Refines s) (uri : String) :
    (w.existing? uri).map Parsed.document =
      (s[uri]?.filter Record.parsed).map fun r => r.document uri := by
  rw [h.record, existing?]
  rcases he : w.entry? uri with _ | e
  · rfl
  · have hrest := h.atRest he
    rw [Option.bind_some, hrest.existing?_eq, Option.map_some, Option.filter_some]
    rcases hp : e.parsed with _ | p
    · simp [Entry.record, hp]
    · rw [if_pos (by simp [Entry.record, hp]), Option.map_some, Option.map_some,
        hrest.document_eq hp, hrest.buffer_eq]
      rfl

theorem version?_eq (h : w.Refines s) (uri : String) :
    w.version? uri = s[uri]?.map Record.version := by
  rw [h.record, version?]
  rcases he : w.entry? uri with _ | e
  · rfl
  · exact congrArg some (h.atRest he).published_eq

theorem buffer?_eq (h : w.Refines s) (uri : String) :
    w.buffer? uri = s[uri]?.map fun r => r.buffer uri := by
  rw [h.record, buffer?]
  rcases he : w.entry? uri with _ | e
  · rfl
  · exact congrArg some (h.atRest he).buffer_eq

theorem isSome_entry? (h : w.Refines s) (uri : String) :
    (w.entry? uri).isSome = s.contains uri := by
  rw [Std.TreeMap.contains_eq_isSome_getElem?, h.record, Option.isSome_map]

theorem uris_eq (h : w.Refines s) : w.uris = s.keys := by
  refine uris_eq_of_mem_iff h.distinct s.pairwise_keys fun uri => ?_
  rw [Std.TreeMap.mem_keys, Std.TreeMap.mem_iff_contains, h.isSome_entry?]

/-- Every request is answered as the store answers it, and what it leaves refines what it
leaves of the store. -/
theorem perform (h : w.Refines s) (op : Operation R) : Agree (w.perform op) (s.perform op) := by
  cases op with
  | openDocument uri text version =>
    exact ⟨rfl, h.insert (Entry.atRest_ofBuffer ⟨uri, text, version⟩)⟩
  | closeDocument uri =>
    rw [Workspace.perform, closeDocument, h.isSome_entry?]
    exact ⟨rfl, h.erase uri⟩
  | revise uri version r => exact h.revise uri version r
  | parsed uri => exact h.parsed_map rfl rfl
  | retrieve uri answers => exact h.retrieve uri answers
  | existing uri =>
    rw [Workspace.perform, h.existing?_eq]
    exact ⟨rfl, h⟩
  | view uri f => exact h.parsed_map (f := fun d => .viewed (f d)) rfl rfl
  | version uri =>
    rw [Workspace.perform, h.version?_eq]
    exact ⟨rfl, h⟩
  | buffer uri =>
    rw [Workspace.perform, h.buffer?_eq]
    exact ⟨rfl, h⟩
  | uris =>
    rw [Workspace.perform, h.uris_eq]
    exact ⟨rfl, h⟩

theorem respond_eq : ∀ {w : Workspace} {s : Store}, w.Refines s → ∀ ops : List (Operation R),
    respond Workspace.perform w ops = respond Store.perform s ops
  | _, _, _, [] => rfl
  | _, _, h, op :: ops => by
    obtain ⟨hanswer, hrefines⟩ := h.perform op
    rw [respond, respond, hanswer, hrefines.respond_eq ops]

end Refines

/-- Requests that come one after another are answered as the store answers them. -/
theorem respond_eq_store (ops : List (Operation R)) :
    respond perform empty ops = respond Store.perform ∅ ops :=
  refines_empty.respond_eq ops

end Workspace

end DotProperties
