/-
  LineScan.Proofs.Render.Matrix
  ─────────────────────────────
  **A MATRIX RUNS LIKE ITS AUTOMATON.**

  A table numbers its rows one above the states, with row 0 for a run that
  has ended (`rowOf`).  A scanner that holds nothing but the rows looks one
  cell up for each symbol and takes it for the next row (`drive`).

      one cell     what `next` says, shifted             (`lookup_matrix`)
      one word     where `runFrom` leads, shifted        (`drive_matrix`)

  A cell is written by the last group that holds its symbol, `next` asks the
  first.  The two agree because no symbol is in two groups
  (`Transitions.Separate`).
-/
import LineScan.Proofs.Dfa.Quotient
import LineScan.Render.Matrix

namespace LineScan

/-- The row of a state, and row 0 for no state. -/
def rowOf {size : Nat} : Option (Fin size) → Nat
  | none => 0
  | some s => s.val + 1

@[simp] theorem rowOf_none {size : Nat} : rowOf (none : Option (Fin size)) = 0 := rfl

@[simp] theorem rowOf_some {size : Nat} (s : Fin size) : rowOf (some s) = s.val + 1 := rfl

/-! ## §1. Cells. -/

namespace Transitions

variable {size : Nat} {ts : Transitions size}

/-- Groups that do not hold a symbol leave its cell alone. -/
theorem foldl_cell_of_not_mem {a : Symbol}
    (h : ∀ t ∈ ts, ¬ t.symbols.contains a.val = true) (k : Nat) :
    ts.foldl (fun k t => if t.symbols.contains a then t.target.val + 1 else k) k = k := by
  induction ts with
  | nil => rfl
  | cons t ts ih =>
      rw [List.foldl_cons, if_neg (h t List.mem_cons_self)]
      exact ih fun u hu => h u (List.mem_cons_of_mem _ hu)

/-- **A cell holds the row that its symbol leads to.** -/
theorem Separate.cell_eq (h : ts.Separate) (a : Symbol) :
    ts.cell a = rowOf (ts.target? a.toByte) := by
  induction ts with
  | nil => rfl
  | cons t ts ih =>
      obtain ⟨hfirst, hrest⟩ := List.pairwise_cons.1 h
      rw [target?_cons, Symbol.toNat_toByte]
      unfold cell
      rw [List.foldl_cons]
      by_cases ht : t.symbols.contains a.val = true
      · -- the first group to hold the symbol is also the last
        rw [if_pos ht, if_pos ht, foldl_cell_of_not_mem fun u hu => hfirst u hu a.val ht]
        rfl
      · rw [if_neg ht, if_neg ht]
        exact ih hrest

theorem length_row (ts : Transitions size) : ts.row.length = alphabetSize := by
  simp [row, alphabet]

theorem getElem?_row (ts : Transitions size) (a : Symbol) : ts.row[a.val]? = some (ts.cell a) := by
  simp [row, alphabet]

end Transitions

/-! ## §2. Rows. -/

/-- The cell of a row and a symbol; nothing if it lies outside the table. -/
def lookup (rows : List (List Nat)) (r : Nat) (a : Symbol) : Option Nat :=
  rows[r]?.bind fun row => row[a.val]?

namespace Dfa

variable {d : Dfa}

/-- Every row has one cell for each symbol. -/
theorem length_of_mem_matrix {row : List Nat} (h : row ∈ d.matrix) :
    row.length = alphabetSize := by
  rcases List.mem_cons.1 h with h | h
  · rw [h]
    simp [deadRow, alphabet]
  · obtain ⟨s, _, hs⟩ := List.mem_map.1 h
    rw [← hs]
    exact s.transitions.length_row

theorem getElem?_matrix_zero (d : Dfa) : d.matrix[0]? = some deadRow := rfl

theorem getElem?_matrix_succ (d : Dfa) (s : Fin d.size) :
    d.matrix[s.val + 1]? = some (d.state s).transitions.row := by
  simp [matrix, state]

/-- **One cell of the matrix** is one transition of the automaton. -/
theorem lookup_matrix (hd : d.Separate) (s : Option (Fin d.size)) (a : Symbol) :
    lookup d.matrix (rowOf s) a = some (rowOf (s.bind fun t => d.next t a.toByte)) := by
  unfold lookup
  cases s with
  | none =>
      rw [rowOf_none, getElem?_matrix_zero, Option.bind_some]
      simp [deadRow, alphabet]
  | some t =>
      rw [rowOf_some, getElem?_matrix_succ, Option.bind_some, Transitions.getElem?_row,
        (hd t).cell_eq]
      rfl

end Dfa

/-! ## §3. Words. -/

/-- The row in which a scanner ends that starts in row `r` and takes the cell
of each symbol of a word for the next row. -/
def drive (rows : List (List Nat)) (r : Nat) : List Symbol → Option Nat
  | [] => some r
  | a :: rest => (lookup rows r a).bind fun r' => drive rows r' rest

/-- **A scanner with nothing but the matrix runs like the automaton.** -/
theorem Dfa.drive_matrix {d : Dfa} (hd : d.Separate) (s : Option (Fin d.size)) (w : List Symbol) :
    drive d.matrix (rowOf s) w =
      some (rowOf (s.bind fun t => d.runFrom t (w.map Symbol.toByte))) := by
  induction w generalizing s with
  | nil => cases s <;> rfl
  | cons a w ih =>
      unfold drive
      rw [lookup_matrix hd, Option.bind_some, ih, Option.bind_assoc, List.map_cons]
      simp only [runFrom_cons]

end LineScan
