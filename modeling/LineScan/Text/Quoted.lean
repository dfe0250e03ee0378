/-
  LineScan.Text.Quoted
  ────────────────────
  **QUOTING A PATTERN FOR THE LOG.**

  Between double quotes, with a backslash before quotes and backslashes, a
  letter for the common control characters and `\u` with the number in braces
  for the others.  The log only quotes patterns that compile, and those are
  made of characters below 127; others are passed through unchanged.
-/

namespace LineScan

/-- One character between double quotes. -/
def quotedChar (c : Char) : List Char :=
  match c with
  | '"' => ['\\', '"']
  | '\\' => ['\\', '\\']
  | '\n' => ['\\', 'n']
  | '\t' => ['\\', 't']
  | '\r' => ['\\', 'r']
  | '\x00' => ['\\', '0']
  | c =>
      if c.toNat < 0x20 ∨ c.toNat = 0x7f then
        ['\\', 'u', '\x7b'] ++ Nat.toDigits 16 c.toNat ++ ['\x7d']
      else [c]

/-- A text between double quotes. -/
def quoted (s : String) : String :=
  String.ofList ('"' :: s.toList.flatMap quotedChar ++ ['"'])

end LineScan
