import DotProperties.Text.Letter.Table

/-!
# Letters

Which characters are alphanumeric, small or capital, and the lowercase of a character,
over all of Unicode. The ASCII characters are decided first, by their own classes.
-/

namespace DotProperties

/-- A letter or a number. -/
def isAlphanumeric (c : Char) : Bool :=
  if c.toNat < 0x80 then c.isAlphanum else alphanumericStrides.any (·.contains c.toNat)

/-- A small letter. -/
def isSmall (c : Char) : Bool :=
  if c.toNat < 0x80 then c.isLower else lowercaseStrides.any (·.contains c.toNat)

/-- A capital letter. -/
def isCapital (c : Char) : Bool :=
  if c.toNat < 0x80 then c.isUpper else uppercaseStrides.any (·.contains c.toNat)

/-- The lowercase of a character. That of a capital I with a dot above is a small i with
the dot as a mark of its own; every other one is a single character. -/
def lowercase (c : Char) : List Char :=
  if c.toNat < 0x80 then [c.toLower]
  else if c == 'İ' then ['i', '\u0307']
  else
    match loweringStrides.find? (·.1.contains c.toNat) with
    | some (_, distance) => [Char.ofNat (c.toNat + distance).toNat]
    | none => [c]

end DotProperties
