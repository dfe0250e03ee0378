/-
  LineScan.Text.Emphasis
  ──────────────────────
  **BOLD COLORS FOR TERMINALS.**

  Diagnostics and headings emphasize a word in bold red or bold green when
  they go to a terminal.  An `Emphasis` says whether they do.
-/

namespace LineScan

/-- How emphasized words are written. -/
inductive Emphasis where
  /-- Like all other words. -/
  | plain
  /-- Between terminal control sequences. -/
  | colored
deriving DecidableEq, Repr

namespace Emphasis

/-- A word between the control sequence that turns `code` on and the one that
turns it off. -/
def wrap (e : Emphasis) (code word : String) : String :=
  match e with
  | .plain => word
  | .colored => "\x1b[" ++ code ++ "m" ++ word ++ "\x1b[0m"

/-- A word in bold red. -/
def red (e : Emphasis) (word : String) : String := e.wrap "1;31" word

/-- A word in bold green. -/
def green (e : Emphasis) (word : String) : String := e.wrap "1;32" word

end Emphasis

end LineScan
