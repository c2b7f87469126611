import DotProperties.Text.Location

/-!
# Placeholder patterns

A catalog name may hold placeholders, `{*}` for any key of a map and `[*]` for any index
of an array. A placeholder stands for one segment of a name : a quoted one, which may
hold dots, or the characters up to the next dot that has no backslash in front of it.
Every other character of a pattern stands for itself.
-/

namespace DotProperties

namespace Text

/-- What follows a placeholder that a text starts with. -/
def afterPlaceholder? : Text → Option Text
  | '{' :: '*' :: '}' :: t => some t
  | '[' :: '*' :: ']' :: t => some t
  | _ => none

/-- The text holds a placeholder. -/
def hasPlaceholder : Text → Bool
  | [] => false
  | c :: t => (afterPlaceholder? (c :: t)).isSome || hasPlaceholder t

/-- What follows an unquoted segment, `last` being the character before. -/
def afterPlainSegment (last : Char) : Text → Text
  | [] => []
  | c :: t => if c == '.' && last != '\\' then c :: t else afterPlainSegment c t

/-- What follows the first segment of a name. A quoted segment that is not closed runs up
to the end. The empty name has no segment. -/
def afterSegment? : Text → Option Text
  | [] => none
  | '"' :: t => some ((t.dropWhile (· != '"')).drop 1)
  | c :: t => some (afterPlainSegment c t)

/-- The name `t` is one that the pattern stands for. -/
def matchesPattern : (pattern : Text) → (t : Text) → Bool
  | [], t => t.isEmpty
  | '{' :: '*' :: '}' :: pattern, t => (afterSegment? t).any (matchesPattern pattern)
  | '[' :: '*' :: ']' :: pattern, t => (afterSegment? t).any (matchesPattern pattern)
  | _ :: _, [] => false
  | c :: pattern, d :: t => c == d && matchesPattern pattern t

end Text

end DotProperties
