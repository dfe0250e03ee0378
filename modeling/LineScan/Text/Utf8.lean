/-
  LineScan.Text.Utf8
  ──────────────────
  **PATTERNS AS BYTES.**

  Patterns are text, but they are read byte by byte, and positions in them
  are byte offsets.  This module holds the two directions: the bytes of a
  text, and the column (in characters) that a byte offset falls into, which
  is where a diagnostic puts its caret.
-/

namespace LineScan

/-- The UTF-8 bytes of a text. -/
def utf8 (s : String) : List UInt8 := s.toList.flatMap String.utf8EncodeChar

/-- The number of characters that start before a byte offset. -/
def columnOf (s : String) (offset : Nat) : Nat := go 0 s.toList
where
  /-- Counts the characters that start before the offset; the first of them
  starts at `here`. -/
  go (here : Nat) : List Char → Nat
    | [] => 0
    | c :: rest => if here < offset then go (here + c.utf8Size) rest + 1 else 0

end LineScan
