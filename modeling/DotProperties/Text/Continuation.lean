import DotProperties.Text.Blank

/-!
# Continued lines

A backslash right before a line terminator joins the line to the next one. `Text.join`
removes such a backslash, the terminator and the blanks at the start of the next line;
every other backslash stays as it is.
-/

namespace DotProperties

namespace Text

/-- `t` with its continuations removed. `trimming` says that a continuation was just
removed, so that blanks are dropped up to the next other character. -/
def joinFrom (trimming : Bool) : Text → Text
  | [] => []
  | '\\' :: '\n' :: t => joinFrom true t
  | '\\' :: '\r' :: '\n' :: t => joinFrom true t
  | '\\' :: '\r' :: t => joinFrom true t
  | c :: t => if trimming && isBlank c then joinFrom true t else c :: joinFrom false t

/-- The logical text : `t` with its continuations removed. -/
def join (t : Text) : Text := joinFrom false t

end Text

end DotProperties
