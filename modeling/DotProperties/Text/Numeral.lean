import DotProperties.Text.Location

/-!
# Numerals

Which texts read as a truth value, as an integer and as a number with a fraction. Only
the spelling is judged : an integer may have any number of digits, and a number too
large or too small for a machine word still reads as one.
-/

namespace DotProperties

namespace Text

/-- `t` without one sign in front. -/
def unsigned : Text → Text
  | '+' :: t => t
  | '-' :: t => t
  | t => t

/-- At least one digit and nothing else. -/
def isDigits (t : Text) : Bool := !t.isEmpty && t.all Char.isDigit

/-- `t` is `word`, whose ASCII letters are small, in small or capital letters. -/
def spells (word : String) (t : Text) : Bool := t.map Char.toLower == word.toList

/-- A truth value, in small or capital letters. -/
def isBoolean (t : Text) : Bool := t.spells "true" || t.spells "false"

/-- Digits with or without a sign. -/
def isInteger (t : Text) : Bool := isDigits (unsigned t)

/-- Nothing, or an exponent : an `e`, a sign or none, and digits. -/
def isExponent : Text → Bool
  | [] => true
  | c :: t => (c == 'e' || c == 'E') && isDigits (unsigned t)

/-- Digits, with or without a point before, between or behind them, and an exponent. -/
def isDecimal (t : Text) : Bool :=
  let whole := t.takeWhile Char.isDigit
  match t.dropWhile Char.isDigit with
  | '.' :: rest =>
    let fraction := rest.takeWhile Char.isDigit
    !(whole.isEmpty && fraction.isEmpty) && isExponent (rest.dropWhile Char.isDigit)
  | rest => !whole.isEmpty && isExponent rest

/-- A decimal, an infinity or the value that is no number, with or without a sign. -/
def isReal (t : Text) : Bool :=
  let u := unsigned t
  isDecimal u || u.spells "inf" || u.spells "infinity" || u.spells "nan"

end Text

end DotProperties
