/-
  LineScan.Pattern.Regex
  ──────────────────────
  **EXPRESSIONS AND RULES.**

  What a pattern means, once it has been read.  A `Regex` is a regular
  expression over symbols; a `Rule` is an expression with the line ends it is
  tied to; a pattern is a list of rules, and matches what one of them matches.
-/
import LineScan.Anchor
import LineScan.CharClass

namespace LineScan

/-- A regular expression. -/
inductive Regex where
  /-- This symbol. -/
  | symbol (a : Symbol)
  /-- One byte of a class. -/
  | cls (c : CharClass)
  /-- One after the other. -/
  | cat (first second : Regex)
  /-- One or the other. -/
  | alt (left right : Regex)
  /-- Any number of times. -/
  | star (body : Regex)
  /-- At least once. -/
  | plus (body : Regex)
  /-- At most once. -/
  | optional (body : Regex)
deriving DecidableEq

/-- An expression and the line ends it is tied to. -/
structure Rule where
  /-- Whether the expression must begin a line. -/
  bol : Bool
  /-- The expression. -/
  body : Regex
  /-- Whether the expression must end a line. -/
  eol : Bool
deriving DecidableEq

/-- The anchor of a rule. -/
def Rule.anchor (r : Rule) : Anchor := ⟨r.bol, r.eol⟩

end LineScan
