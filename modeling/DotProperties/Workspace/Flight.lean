import DotProperties.Workspace.Basic

/-!
# Parsing on request

`Workspace.parsed` gives the parsed form of a document. It is parsed when it is first
asked for, and the result is kept until the text changes, so that requests that ask again
share it.

A document is locked while it is parsed. Before each line the parse looks whether its
result is still wanted : the document may have been closed, a newer version may have been
published, or the one who asked may have lost interest. Other requests can be served inside
such a poll, and `Flight` is the state of affairs while this goes on. An edit of the locked
document publishes its version at once, which ends the parse at its next poll, and waits for
the parse to end before it is carried out. A document that is closed or opened anew under
the same name is locked no more; the parse then works on an entry that nobody sees.
-/

namespace DotProperties

/-- An edit that waits, with the version published for it. -/
structure WaitingEdit where
  /-- The version. -/
  version : Int
  /-- The edit. -/
  revision : Revision
  deriving DecidableEq

/-- A parse under way, and what is served meanwhile. -/
structure Flight where
  /-- The open documents. -/
  workspace : Workspace
  /-- The name of the document being parsed. -/
  uri : String
  /-- The document being parsed. -/
  entry : Entry
  /-- The document being parsed is still the one of its name. -/
  attached : Bool
  /-- The edits of the locked document in order, or why one was refused at once. -/
  waiting : List (Except WorkspaceError WaitingEdit)
  /-- Number of polls of the one who asked. -/
  polls : Nat
  /-- The answers to the requests served meanwhile, in order. -/
  replies : List Workspace.Reply

namespace Flight

/-- The flight with another state of the document being parsed. -/
def setEntry (f : Flight) (e : Entry) : Flight :=
  if f.attached then { f with entry := e, workspace := f.workspace.insert f.uri e }
  else { f with entry := e }

/-- A request about `uri` concerns the locked document. -/
def locks (f : Flight) (uri : String) : Bool := f.attached && uri == f.uri

/-- The flight once its document is closed or opened anew under its name. -/
def detach (f : Flight) : Flight :=
  { f with entry := { f.entry with closed := true }, attached := false }

/-- Publish a version of the locked document for an edit that waits. -/
def enqueue (f : Flight) (version : Int) (r : Revision) : Flight :=
  match f.entry.publish version with
  | .ok e => { f.setEntry e with waiting := f.waiting ++ [.ok ⟨version, r⟩] }
  | .error err => { f with waiting := f.waiting ++ [.error err] }

/-- Serve a request in the workspace. -/
def serveInWorkspace (f : Flight) (request : Workspace.Request) : Flight :=
  let (reply, w) := f.workspace.serve request
  { f with workspace := w, replies := f.replies ++ [reply] }

/-- Serve a request while the parse is under way. -/
def serve (f : Flight) (request : Workspace.Request) : Flight :=
  match request with
  | .revise uri version r =>
    if f.locks uri then { f.enqueue version r with replies := f.replies ++ [.pending] }
    else f.serveInWorkspace request
  | .openDocument uri _ _ | .closeDocument uri =>
    (if f.locks uri then f.detach else f).serveInWorkspace request
  | .version _ | .existing _ => f.serveInWorkspace request

/-- Carry out an edit that waited. -/
def commit (f : Flight) (edit : Except WorkspaceError WaitingEdit) :
    Except WorkspaceError Unit × Flight :=
  match edit with
  | .ok c =>
    let (answer, e) := f.entry.commit c.version c.revision
    (answer, f.setEntry e)
  | .error err => (.error err, f)

/-- Carry out the edits that waited, in order. -/
def commitAll (f : Flight) : List (Except WorkspaceError WaitingEdit) →
    List (Except WorkspaceError Unit) × Flight
  | [] => ([], f)
  | edit :: edits =>
    let (answer, f') := f.commit edit
    let (answers, f'') := f'.commitAll edits
    (answer :: answers, f'')

end Flight

/-- Who asks for a parsed form : what happens inside each poll, and how the poll is then
answered. Polls are numbered from zero. -/
structure Asker where
  /-- The requests served inside a poll, in order. -/
  meanwhile : Nat → List Workspace.Request := fun _ => []
  /-- The result is no longer wanted. -/
  answers : Nat → Bool := fun _ => false

/-- Whether to give up the parse of a buffer at `version`. The asker is only asked if the
document itself gives no reason. -/
def Asker.check (a : Asker) (version : Int) : Checker Flight := fun f =>
  if f.entry.isOutdated version then (true, f)
  else
    let f' := { f with polls := f.polls + 1 }
    (a.answers f.polls, (a.meanwhile f.polls).foldl Flight.serve f')

/-- What a request for a parsed form led to. -/
structure Retrieval where
  /-- The parsed form, or why there is none. -/
  answer : Except WorkspaceError Parsed
  /-- Number of polls of the asker. -/
  polls : Nat := 0
  /-- The answers to the requests served meanwhile. -/
  replies : List Workspace.Reply := []
  /-- The answers to the edits that waited. -/
  late : List (Except WorkspaceError Unit) := []
  /-- The open documents afterwards. -/
  workspace : Workspace

namespace Workspace

/-- Parse a document that is open. -/
def parse (w : Workspace) (uri : String) (e : Entry) (a : Asker) : Retrieval :=
  let (document?, f) :=
    Document.read (a.check e.buffer.version) ⟨w, uri, e, true, [], 0, []⟩ e.buffer
  let (answer, f') : Except WorkspaceError Parsed × Flight :=
    match document? with
    | some d =>
      let p : Parsed := ⟨f.workspace.parses, d⟩
      let counted := { f with workspace.parses := f.workspace.parses + 1 }
      (.ok p, counted.setEntry { f.entry with parsed := some p })
    | none => (.error .cancelled, f)
  let (late, f'') := f'.commitAll f'.waiting
  ⟨answer, f''.polls, f''.replies, late, f''.workspace⟩

/-- The parsed form of a document, for an asker. -/
def retrieve (w : Workspace) (uri : String) (a : Asker) : Retrieval :=
  match w.entry uri with
  | .error err => { answer := .error err, workspace := w }
  | .ok e =>
    match e.parsed with
    | some p => { answer := .ok p, workspace := w }
    | none => w.parse uri e a

/-- The parsed form of a document, for an asker who waits for it. -/
def parsed (w : Workspace) (uri : String) : Except WorkspaceError Parsed × Workspace :=
  let r := w.retrieve uri {}
  (r.answer, r.workspace)

end Workspace

end DotProperties
