import DotProperties.Text.Location

/-!
# Globs

A glob describes names : `?` is any byte, `*` any bytes, `[..]` one byte of a class, and
`{a,b}` either of two globs. `**` at the start, between or at the end of path components
stands for any number of them.

A glob is matched against the UTF-8 bytes of a whole name. The places between the bytes
are marked, from before the first to behind the last, where a reading of the glob so far
can end. `Glob.advance` moves the marks over a glob, all readings at once, and the name
matches if the last place is marked in the end.
-/

namespace DotProperties

/-- The bytes of a text in UTF-8. -/
def Text.bytes (t : Text) : List UInt8 := t.flatMap String.utf8EncodeChar

/-- A set of bytes : those between the ends of one of `ranges`, or all others if
`negated`. -/
structure ByteClass where
  /-- The class holds the bytes outside of the ranges. -/
  negated : Bool
  /-- Least and greatest byte of each range. -/
  ranges : List (UInt8 × UInt8)
  deriving DecidableEq

/-- `b` is in the class. -/
def ByteClass.contains (k : ByteClass) (b : UInt8) : Bool :=
  k.negated != k.ranges.any fun (lo, hi) => lo ≤ b && b ≤ hi

/-- A glob. -/
inductive Glob where
  /-- Nothing. -/
  | empty
  /-- A character. -/
  | literal (c : Char)
  /-- Any one byte. -/
  | any
  /-- One byte of a class. -/
  | byteClass (bytes : ByteClass)
  /-- Any bytes. -/
  | star
  /-- Leading path components with the slash behind them, or none. -/
  | leading
  /-- A slash and everything behind it. -/
  | trailing
  /-- A slash, with or without path components and another slash behind it. -/
  | inner
  /-- One glob and then another. -/
  | seq (g h : Glob)
  /-- Either of two globs. -/
  | alt (g h : Glob)
  /-- A glob in braces. -/
  | group (g : Glob)
  deriving DecidableEq

/-- For each place of a byte sequence, from before its first byte to behind its last one,
whether a reading can end there. -/
abbrev Marks := List Bool

namespace Marks

/-- The place before the first of `n` bytes. -/
def atStart (n : Nat) : Marks := true :: List.replicate n false

/-- The places behind one byte of `w` that passes `test`. -/
def consume (test : UInt8 → Bool) (w : List UInt8) (m : Marks) : Marks :=
  false :: List.zipWith (fun b marked => marked && test b) w m

/-- The places behind any bytes. `seen` says that a place before was marked. -/
def spread (seen : Bool) : Marks → Marks
  | [] => []
  | marked :: m => (seen || marked) :: spread (seen || marked) m

/-- The places of either. -/
def union (m m' : Marks) : Marks := List.zipWith or m m'

/-- The places behind a slash. -/
def slash (w : List UInt8) (m : Marks) : Marks := m.consume (· == 0x2f) w

/-- The places behind any bytes and a slash. -/
def components (w : List UInt8) (m : Marks) : Marks := slash w (m.spread false)

end Marks

namespace Glob

/-- The places of `w` at which a reading of the glob can end that starts at one of the
places `m`. -/
def advance (w : List UInt8) : Glob → Marks → Marks
  | empty, m => m
  | literal c, m => (String.utf8EncodeChar c).foldl (fun m a => m.consume (· == a) w) m
  | any, m => m.consume (fun _ => true) w
  | byteClass k, m => m.consume k.contains w
  | star, m => m.spread false
  | leading, m => m.union (m.components w)
  | trailing, m => (m.slash w).spread false
  | inner, m => (m.slash w).union ((m.slash w).components w)
  | seq g h, m => h.advance w (g.advance w m)
  | alt g h, m => (g.advance w m).union (h.advance w m)
  | group g, m => g.advance w m

/-- The glob describes the whole of `w`. -/
def describes (g : Glob) (w : List UInt8) : Bool :=
  (g.advance w (Marks.atStart w.length)).getLastD false

/-- The glob describes a name. -/
def isMatch (g : Glob) (name : Text) : Bool := g.describes name.bytes

/-- Globs one behind the other. -/
def sequence (parts : List Glob) : Glob := parts.foldl .seq .empty

/-- How deep braces stand in braces. -/
def depth : Glob → Nat
  | seq g h | alt g h => max g.depth h.depth
  | group g => g.depth + 1
  | _ => 0

end Glob

end DotProperties
