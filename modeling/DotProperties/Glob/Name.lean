import DotProperties.Glob.Basic

/-!
# Globs of names

A `NameGlob` is a glob for whole names, kept as its parts. It describes what the parts
describe one behind the other, with two rules of its own. Two stars alone describe every
name. And a name whose last path component is `..` leads to a directory and has no file
name (`Text.hasFileName`), so a glob that is told by the file name alone
(`NameGlob.readsFileName`) does not describe it.

A glob is told by the file name if it is a fixed file name in any directory, if it is any
bytes and an extension, or if it ends in an extension and is neither a fixed text nor a
fixed ending. An extension is a dot with neither a dot nor a slash behind it.
-/

namespace DotProperties

namespace Text

/-- What stands behind the last slash, or all of the text if there is none. -/
def lastComponent (t : Text) : Text := (t.reverse.takeWhile (· != '/')).reverse

/-- The last path component of a name is a file name : it does not lead upwards. -/
def hasFileName (t : Text) : Bool := t.lastComponent != ['.', '.']

/-- A character of an extension behind its dot. -/
def isOfExtension (c : Char) : Bool := c != '.' && c != '/'

/-- A dot with neither a dot nor a slash behind it. -/
def isExtension : Text → Bool
  | '.' :: t => t.all isOfExtension
  | _ => false

end Text

namespace Glob

/-- The character that the glob is. -/
def literal? : Glob → Option Char
  | literal c => some c
  | _ => none

/-- Parts that end in an extension. -/
def endInExtension (parts : List Glob) : Bool :=
  (parts.reverse.dropWhile fun g => g.literal?.any Text.isOfExtension).head? = some (.literal '.')

end Glob

/-- A glob for whole names. -/
structure NameGlob where
  /-- Its parts, in order. -/
  parts : List Glob
  deriving DecidableEq

namespace NameGlob

/-- The parts as one glob. Two stars alone describe every name. -/
def whole (g : NameGlob) : Glob :=
  if g.parts = [.leading] then .star else Glob.sequence g.parts

/-- The parts behind leading path components. -/
def inDirectory (g : NameGlob) : List Glob :=
  match g.parts with
  | .leading :: parts => parts
  | parts => parts

/-- The glob is told by the file name of a name. -/
def readsFileName (g : NameGlob) : Bool :=
  let fixed? (parts : List Glob) : Option Text := parts.mapM Glob.literal?
  match fixed? g.inDirectory with
  | some t => g.inDirectory != g.parts && !t.isEmpty && !t.contains '/'
  | none =>
    match g.inDirectory with
    | .star :: parts => ((fixed? parts).map Text.isExtension).getD (Glob.endInExtension g.parts)
    | _ => Glob.endInExtension g.parts

/-- The glob describes a name. -/
def isMatch (g : NameGlob) (name : Text) : Bool :=
  g.whole.isMatch name && (name.hasFileName || !g.readsFileName)

/-- Some glob of a list describes a name. -/
def anyMatch (globs : List NameGlob) (name : Text) : Bool := globs.any (·.isMatch name)

/-- How deep braces stand in braces. -/
def depth (g : NameGlob) : Nat := g.whole.depth

end NameGlob

end DotProperties
