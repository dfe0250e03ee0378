/-
  LineScan.Render.Matrix
  ──────────────────────
  **THE TRANSITION MATRIX.**

  Every table that this library writes numbers its rows alike.  Row 0 is the
  dead state, from which nothing leads on; state `i` is row `i + 1`.  A cell
  holds the row that a symbol leads to, and 0 where it leads nowhere.
-/
import LineScan.Dfa.Basic

namespace LineScan

namespace Transitions

variable {size : Nat}

/-- The cell of one symbol: the row of the last group that holds it. -/
def cell (ts : Transitions size) (a : Symbol) : Nat :=
  ts.foldl (fun k t => if t.symbols.contains a then t.target.val + 1 else k) 0

/-- The cells of all symbols, ascending. -/
def row (ts : Transitions size) : List Nat := alphabet.map ts.cell

end Transitions

namespace Dfa

/-- The row of the dead state. -/
def deadRow : List Nat := alphabet.map fun _ => 0

/-- **The rows of all states**, after the one of the dead state. -/
def matrix (d : Dfa) : List (List Nat) :=
  deadRow :: d.states.toList.map fun s => s.transitions.row

theorem length_matrix (d : Dfa) : d.matrix.length = d.size + 1 := by
  simp [matrix]

end Dfa

end LineScan
