/-
  LineScan.Text.Caret
  ───────────────────
  **CARET NOTATION FOR BYTES.**

  A control byte is written as a caret and the letter 64 places on (`^J` for
  a line feed, `^@` for zero); every other byte is written as the character
  of its number.  A caret itself is not escaped, so `^J` may also be a caret
  followed by a J: the notation is for reading, not for reading back.
-/

namespace LineScan

/-- A byte in caret notation. -/
def caretForm (b : UInt8) : String :=
  if b < 0x20 then String.ofList ['^', Char.ofNat (b.toNat + 64)]
  else String.singleton (Char.ofNat b.toNat)

example : caretForm 10 = "^J" := by decide
example : caretForm 0 = "^@" := by decide
example : caretForm 0x78 = "x" := by decide

end LineScan
