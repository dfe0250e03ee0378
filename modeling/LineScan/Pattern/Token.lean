/-
  LineScan.Pattern.Token
  ──────────────────────
  **WHAT A PATTERN IS MADE OF.**

  Read from left to right, a pattern is a list of items.  An item is a
  `Token` (a symbol, together with what it means at this place and where it
  starts) or a foreign byte, which no token can stand for.

  Most symbols stand for themselves.  Twelve of them are operators when they
  are written plainly; quoted or escaped they are literals like the others.
-/
import LineScan.Alphabet

namespace LineScan

/-- What a token means. -/
inductive Kind where
  /-- `[`, which opens a character class. -/
  | leftBracket
  /-- `]`, which closes a character class. -/
  | rightBracket
  /-- `(`, which opens a group. -/
  | leftParen
  /-- `)`, which closes a group. -/
  | rightParen
  /-- `^`, the beginning of a line, or the complement of a class. -/
  | caret
  /-- `-`, which makes a range inside a class. -/
  | dash
  /-- `.`, any symbol that does not end a line. -/
  | dot
  /-- `$`, the end of a line, which also ends a rule. -/
  | dollar
  /-- A symbol that stands for itself. -/
  | literal
  /-- `|`, between alternatives. -/
  | pipe
  /-- `+`, one or more. -/
  | plus
  /-- `?`, at most one. -/
  | questionMark
  /-- `*`, any number. -/
  | star
deriving DecidableEq, Repr

namespace Kind

/-- The meaning of a byte that is written plainly. -/
def ofPlain (b : UInt8) : Kind :=
  match Char.ofNat b.toNat with
  | '$' => .dollar
  | '(' => .leftParen
  | ')' => .rightParen
  | '*' => .star
  | '+' => .plus
  | '-' => .dash
  | '.' => .dot
  | '?' => .questionMark
  | '[' => .leftBracket
  | ']' => .rightBracket
  | '^' => .caret
  | '|' => .pipe
  | _ => .literal

end Kind

/-- A symbol with its meaning and the offset at which its spelling starts. -/
structure Token where
  /-- What the token means. -/
  kind : Kind
  /-- The symbol the token stands for. -/
  symbol : Symbol
  /-- The byte offset of the first byte of its spelling. -/
  position : Nat
deriving DecidableEq, Repr

/-- One item of a pattern. -/
inductive Item where
  /-- A token. -/
  | token (t : Token)
  /-- A byte outside the alphabet, spelled from `position` on. -/
  | foreign (byte : UInt8) (position : Nat)
deriving DecidableEq, Repr

/-- The offset at which the spelling of an item starts. -/
def Item.position : Item → Nat
  | .token t => t.position
  | .foreign _ p => p

end LineScan
