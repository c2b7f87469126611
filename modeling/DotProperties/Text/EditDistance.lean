import DotProperties.Text.Location

/-!
# Similar spellings

`Text.distance` is the least number of insertions, deletions and substitutions of one
character that turn one text into another. It is computed row by row : the row of a
prefix `u` of the first text lists the distances from `u` to the prefixes of the second.

A name is similar to a known one within a tenth of the known one's length, rounded half
up. A value may also be the beginning of a known one.
-/

namespace DotProperties

namespace Text

/-- The rest of the row after `c`, from the row before it. `left` is the entry just
computed; the row before starts with the entry above it. -/
def extendRow (c : Char) (left : Nat) : Text → List Nat → List Nat
  | d :: t, corner :: above :: row =>
    let entry := min (min (left + 1) (above + 1)) (corner + if c = d then 0 else 1)
    entry :: extendRow c entry t (above :: row)
  | _, _ => []

/-- The row after `c`, from the row before it. -/
def nextRow (t : Text) (row : List Nat) (c : Char) : List Nat :=
  let first := row.headD 0 + 1
  first :: extendRow c first t row

/-- The edit distance of two texts. -/
def distance (s t : Text) : Nat :=
  (s.foldl (nextRow t) (List.range (t.length + 1))).getLastD 0

/-- The greatest distance at which a text is similar to `known`. -/
def tolerance (known : Text) : Nat := (known.length + 5) / 10

/-- `current` is similar to the name `known`. -/
def isSimilar (known current : Text) : Bool := distance known current ≤ tolerance known

/-- `current` is the beginning of the value `known` or similar to it. -/
def isSimilarValue (known current : Text) : Bool :=
  current.isPrefixOf known || isSimilar known current

end Text

end DotProperties
