import DotProperties.Workspace.Entry

/-!
# Workspaces

A `Workspace` holds the open documents by name and serves requests to open, close and
edit them. Documents of different names do not touch each other. It also counts the
parses made so far, so that the results of two parses can be told apart.
-/

namespace DotProperties

/-- The open documents. -/
structure Workspace where
  /-- The documents with their names, each name once. -/
  entries : List (String × Entry)
  /-- Number of parses so far. -/
  parses : Nat
  deriving DecidableEq

namespace Workspace

/-- No document is open. -/
def empty : Workspace := ⟨[], 0⟩

/-- The document of a name. -/
def entry? (w : Workspace) (uri : String) : Option Entry := w.entries.lookup uri

/-- The document of a name, or the reason why there is none. -/
def entry (w : Workspace) (uri : String) : Except WorkspaceError Entry :=
  match w.entry? uri with
  | some e => .ok e
  | none => .error (.unknownDocument uri)

/-- The workspace without a document. -/
def erase (w : Workspace) (uri : String) : Workspace :=
  { w with entries := w.entries.filter fun e => e.1 != uri }

/-- The workspace with a document put in, in place of one of the same name. -/
def insert (w : Workspace) (uri : String) (e : Entry) : Workspace :=
  { w.erase uri with entries := (uri, e) :: (w.erase uri).entries }

/-- Open a document. One of the same name is replaced, whatever its version. -/
def openDocument (w : Workspace) (uri : String) (text : Text) (version : Int) : Workspace :=
  w.insert uri (.ofBuffer ⟨uri, text, version⟩)

/-- Close a document. The answer says whether it was open. -/
def closeDocument (w : Workspace) (uri : String) : Bool × Workspace :=
  ((w.entry? uri).isSome, w.erase uri)

/-- Edit a document. -/
def revise (w : Workspace) (uri : String) (version : Int) (r : Revision) :
    Except WorkspaceError Unit × Workspace :=
  match w.entry uri with
  | .ok e =>
    let (answer, e') := e.revise version r
    (answer, w.insert uri e')
  | .error err => (.error err, w)

/-- The parsed form of a document, if it was asked for since the last edit. -/
def existing? (w : Workspace) (uri : String) : Option Parsed :=
  (w.entry? uri).bind Entry.existing?

/-- The version of a document published last. -/
def version? (w : Workspace) (uri : String) : Option Int := (w.entry? uri).map Entry.published

/-- The buffer of a document. -/
def buffer? (w : Workspace) (uri : String) : Option Buffer := (w.entry? uri).map Entry.buffer

/-- The names of the open documents, in order. -/
def uris (w : Workspace) : List String :=
  (w.entries.map Prod.fst).mergeSort fun a b => a ≤ b

/-! ## Requests that need no parse -/

/-- A request that is served without parsing. -/
inductive Request where
  /-- Open a document. -/
  | openDocument (uri : String) (text : Text) (version : Int)
  /-- Close a document. -/
  | closeDocument (uri : String)
  /-- Edit a document. -/
  | revise (uri : String) (version : Int) (revision : Revision)
  /-- Ask for the version of a document. -/
  | version (uri : String)
  /-- Ask whether the parsed form of a document is there. -/
  | existing (uri : String)

/-- The answer to a request. -/
inductive Reply where
  /-- The document is open. -/
  | opened
  /-- The document is closed. -/
  | closed (wasOpen : Bool)
  /-- The edit was carried out, or why it was not. -/
  | revised (answer : Except WorkspaceError Unit)
  /-- The edit waits for a parse of the document to end. -/
  | pending
  /-- The version. -/
  | version (version : Option Int)
  /-- Whether the parsed form is there. -/
  | existing (present : Bool)

/-- Serve a request. -/
def serve (w : Workspace) : Request → Reply × Workspace
  | .openDocument uri text version => (.opened, w.openDocument uri text version)
  | .closeDocument uri =>
    let (wasOpen, w') := w.closeDocument uri
    (.closed wasOpen, w')
  | .revise uri version r =>
    let (answer, w') := w.revise uri version r
    (.revised answer, w')
  | .version uri => (.version (w.version? uri), w)
  | .existing uri => (.existing (w.existing? uri).isSome, w)

end Workspace

end DotProperties
