/-
  LineScan.Pattern.Bracket
  ────────────────────────
  **READING A CHARACTER CLASS.**

  Between `[` and `]` stand single symbols and ranges.  A `^` directly after
  the `[` complements the class and is not part of its body.  An empty body
  means the symbols up to the blank.

  A plain dash is an item of its own unless it directly follows a single
  symbol: then it makes a range from that symbol to the token after it,
  whatever that token is.  Only the closing bracket refuses to be the end of
  a range, and turns the dash back into a symbol.  After a range the dash is
  an ordinary symbol again.

  `Bracket` is how far the reading has come, `Bracket.step` takes one token.
-/
import LineScan.CharClass
import LineScan.Pattern.SyntaxError
import LineScan.Pattern.Token

namespace LineScan

/-- What a dash would refer to. -/
inductive Memory where
  /-- Nothing: the body is empty so far, or a range has just ended. -/
  | nothing
  /-- A single symbol was read last. -/
  | single (low : Symbol)
  /-- A dash at `position` was read after the single symbol `low`; the next
  token ends the range. -/
  | pending (low : Symbol) (position : Nat)
deriving DecidableEq, Repr

/-- A character class of which a part has been read. -/
inductive Bracket where
  /-- Only the opening bracket. -/
  | opened
  /-- The opening bracket and the mark of a complement. -/
  | negated
  /-- Some of the body too. -/
  | body (complement : Bool) (set : SymbolSet) (memory : Memory)
deriving DecidableEq

namespace Bracket

/-- What one more token makes of a class. -/
inductive Outcome where
  /-- The class goes on. -/
  | more (b : Bracket)
  /-- The class is complete. -/
  | closed (c : CharClass)
deriving DecidableEq

/-- Reads a symbol that stands for itself. -/
def single (complement : Bool) (set : SymbolSet) (a : Symbol) : Outcome :=
  .more (.body complement (set.insert a) (.single a))

/-- Reads a token of the body. -/
def stepBody (complement : Bool) (set : SymbolSet) (memory : Memory) (t : Token) :
    Except SyntaxError Outcome :=
  match t.kind, memory with
  -- a range without an end was a symbol and a dash
  | .rightBracket, .pending _ _ => .ok (.closed ⟨set.insert Symbol.dash, complement⟩)
  | .rightBracket, _ => .ok (.closed ⟨set, complement⟩)
  -- any other token ends a range, an operator included
  | _, .pending low position =>
      if t.symbol < low then .error (.invalidRange low t.symbol position)
      else .ok (.more (.body complement (set.insertRange low t.symbol) .nothing))
  -- whether this dash makes a range, the next token decides
  | .dash, .single low => .ok (.more (.body complement set (.pending low t.position)))
  | _, _ => .ok (single complement set t.symbol)

/-- Reads the first token of the body, or the end of an empty one. -/
def stepFirst (complement : Bool) (t : Token) : Except SyntaxError Outcome :=
  match t.kind with
  | .rightBracket => .ok (.closed ⟨CharClass.blanks, complement⟩)
  | _ => stepBody complement (BitSet.empty _) .nothing t

/-- **Reads one token of a class.** -/
def step : Bracket → Token → Except SyntaxError Outcome
  | .opened, t => if t.kind = .caret then .ok (.more .negated) else stepFirst false t
  | .negated, t => stepFirst true t
  | .body complement set memory, t => stepBody complement set memory t

end Bracket

end LineScan
