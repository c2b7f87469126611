import DotProperties.Text.Location
import DotProperties.Text.Letter.Basic

/-!
# Kebab case

`Text.kebab` spells a name in lowercase words with hyphens between them, so that
`FOO_BAR` and `fooBar` both become `foo-bar`. A word ends at every character that is
not alphanumeric, before a capital that follows a small letter, and before the last of
several capitals when a small letter follows it (`XMLHttp` is `xml-http`).
-/

namespace DotProperties

/-- The case of the letters read so far in a piece. Characters without a case keep it. -/
inductive CaseMode where
  /-- No letter with a case yet. -/
  | boundary
  /-- The last letter was small. -/
  | small
  /-- The last letter was a capital. -/
  | capital
  deriving DecidableEq

/-- The case after `c`. -/
def CaseMode.after (m : CaseMode) (c : Char) : CaseMode :=
  if isSmall c then .small else if isCapital c then .capital else m

namespace Text

/-- The maximal alphanumeric stretches of a text. `word` is the stretch under way, in
reverse. -/
def wordsFrom (word : Text) : Text → List Text
  | [] => if word.isEmpty then [] else [word.reverse]
  | c :: t =>
    if isAlphanumeric c then wordsFrom (c :: word) t
    else if word.isEmpty then wordsFrom [] t
    else word.reverse :: wordsFrom [] t

/-- The pieces of one word. `piece` is the piece under way, in reverse, and `mode` the
case of its letters. -/
def piecesFrom (mode : CaseMode) (piece : Text) : Text → List Text
  | [] => []
  | [c] => [(c :: piece).reverse]
  | c :: next :: t =>
    if mode.after c = .small ∧ isCapital next then
      (c :: piece).reverse :: piecesFrom .boundary [] (next :: t)
    else if mode = .capital ∧ isCapital c ∧ isSmall next then
      piece.reverse :: piecesFrom .boundary [c] (next :: t)
    else piecesFrom (mode.after c) (c :: piece) (next :: t)

/-- A piece in lowercase. A sigma that ends the piece takes its final form. -/
def lowerPiece : Text → Text
  | [] => []
  | ['Σ'] => ['ς']
  | c :: t => lowercase c ++ lowerPiece t

/-- The text in kebab case. -/
def kebab (t : Text) : Text :=
  let pieces := (wordsFrom [] t).flatMap (piecesFrom .boundary [])
  (pieces.map lowerPiece).intersperse ['-'] |>.flatten

end Text

end DotProperties
