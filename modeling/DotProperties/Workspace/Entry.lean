import DotProperties.Document.Basic

/-!
# One open document

An `Entry` is a document that is open for editing : its buffer, the version that was
published for it last, and its parsed form if it was asked for since the last edit.

An edit happens in two steps, so that a parse under way can notice it in between.
`Entry.publish` publishes a newer version, and `Entry.commit` carries the edit out, unless
a newer one was carried out first. An edit that does not fit the text takes its version
back, unless a newer one was published meanwhile.
-/

namespace DotProperties

/-- Why a request on an open document fails. -/
inductive WorkspaceError where
  /-- The document is not open. -/
  | unknownDocument (uri : String)
  /-- A version is not newer than the one there is. -/
  | staleVersion (uri : String) (version current : Int)
  /-- A change is outside of the document. -/
  | badLocation (error : LocationError)
  /-- The result is no longer wanted. -/
  | cancelled
  deriving DecidableEq

/-- What is told about a request that fails. -/
def WorkspaceError.message : WorkspaceError → String
  | unknownDocument uri => s!"document {uri} is not open"
  | staleVersion uri version current =>
    s!"version {version} of {uri} is not newer than {current}"
  | badLocation e => e.message
  | cancelled => cancelledMessage

/-- An edit of a whole document. -/
inductive Revision where
  /-- Another text. -/
  | replace (text : Text)
  /-- Changes to the text. -/
  | changes (changes : List Change)
  deriving DecidableEq

/-- The buffer after an edit. -/
def Revision.apply (r : Revision) (b : Buffer) (version : Int) : Except LocationError Buffer :=
  match r with
  | replace text => .ok (b.setText text version)
  | changes cs => b.applyChanges cs version

/-- A document that was parsed, with a serial number that no other parse has. -/
structure Parsed where
  /-- The number of the parse. -/
  serial : Nat
  /-- Its result. -/
  document : Document
  deriving DecidableEq

/-- An open document. -/
structure Entry where
  /-- The version published last. It is ahead of the buffer while an edit waits. -/
  published : Int
  /-- The document was closed, or opened anew under the same name. -/
  closed : Bool
  /-- The text. -/
  buffer : Buffer
  /-- The parsed form of the text, if it was asked for. -/
  parsed : Option Parsed
  deriving DecidableEq

namespace Entry

/-- A document opened with a text. -/
def ofBuffer (b : Buffer) : Entry := ⟨b.version, false, b, none⟩

/-- Publish a version, which has to be newer than the one published last. -/
def publish (e : Entry) (version : Int) : Except WorkspaceError Entry :=
  if e.published < version then .ok { e with published := version }
  else .error (.staleVersion e.buffer.uri version e.published)

/-- Carry out the edit that a version was published for. -/
def commit (e : Entry) (version : Int) (r : Revision) : Except WorkspaceError Unit × Entry :=
  let current := e.buffer.version
  if version ≤ current then (.error (.staleVersion e.buffer.uri version current), e)
  else
    match r.apply e.buffer version with
    | .ok buffer => (.ok (), { e with buffer := buffer, parsed := none })
    | .error err =>
      (.error (.badLocation err),
        if e.published = version then { e with published := current } else e)

/-- Publish a version and carry out the edit at once. -/
def revise (e : Entry) (version : Int) (r : Revision) : Except WorkspaceError Unit × Entry :=
  match e.publish version with
  | .ok e' => e'.commit version r
  | .error err => (.error err, e)

/-- The parsed form, if it is that of the version published last. -/
def existing? (e : Entry) : Option Parsed :=
  e.parsed.filter fun p => p.document.buffer.version = e.published

/-- A parse of the text at `version` is no longer wanted. -/
def isOutdated (e : Entry) (version : Int) : Bool := e.closed || e.published != version

end Entry

end DotProperties
