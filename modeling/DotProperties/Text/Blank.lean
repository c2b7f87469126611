import DotProperties.Text.Location

/-!
# Blank characters

The characters with the Unicode property White_Space, which is wider than the spacing
that separates the parts of a line : it decides what is dropped at the start of a
continued line, when a value counts as blank, and where a document's content ends.
-/

namespace DotProperties

/-- The stretches of code points with the property White_Space. -/
def blankRanges : List (Nat × Nat) :=
  [(0x9, 0xd), (0x20, 0x20), (0x85, 0x85), (0xa0, 0xa0), (0x1680, 0x1680), (0x2000, 0x200a),
    (0x2028, 0x2029), (0x202f, 0x202f), (0x205f, 0x205f), (0x3000, 0x3000)]

/-- The character has the property White_Space. -/
def isBlank (c : Char) : Bool :=
  blankRanges.any fun (lo, hi) => lo ≤ c.toNat && c.toNat ≤ hi

namespace Text

/-- `t` without the blanks at its end. -/
def trimEnd (t : Text) : Text := (t.reverse.dropWhile isBlank).reverse

/-- `t` without the blanks at its start and end. -/
def trim (t : Text) : Text := trimEnd (t.dropWhile isBlank)

/-- Every character of `t` is blank. -/
def allBlank (t : Text) : Bool := t.all isBlank

end Text

end DotProperties
