/-
  LineScan.Proofs.Render.PackedRows
  ─────────────────────────────────
  **STORING A ROW LOSES NOTHING.**

  A row is stored as no numbers, as a count and pairs, or as a zero and all
  cells (`PackedRow.values`).  Whichever it is, its cells can be told
  (`PackedRow.cellAt`), and they are those of the row that was stored
  (`cellAt_ofCells`).  `PackedRow.WellFormed` holds what a decoder relies on:
  a count that is not zero, and a cell for every symbol.
-/
import LineScan.Proofs.Render.Matrix
import LineScan.Render.PackedTable

namespace LineScan

namespace PackedRow

/-- The numbers of pairs. -/
def numbersOf (pairs : List (Symbol × Nat)) : List Nat :=
  pairs.flatMap fun (a, cell) => [a.val, cell]

/-- The numbers of a stored row: first a count of pairs, or a zero. -/
def values : PackedRow → List Nat
  | .empty => []
  | .sparse pairs => pairs.length :: numbersOf pairs
  | .dense cells => 0 :: cells

/-- The cell of a symbol in a stored row. -/
def cellAt (a : Symbol) : PackedRow → Nat
  | .empty => 0
  | .sparse pairs => ((pairs.find? fun pair => pair.1 == a).map (·.2)).getD 0
  | .dense cells => (cells[a.val]?).getD 0

/-- What a decoder relies on. -/
def WellFormed : PackedRow → Prop
  | .empty => True
  | .sparse pairs => pairs ≠ [] ∧ pairs.length ≤ alphabetSize
  | .dense cells => cells.length = alphabetSize

theorem numbersOf_append (pairs more : List (Symbol × Nat)) :
    numbersOf (pairs ++ more) = numbersOf pairs ++ numbersOf more := List.flatMap_append

theorem length_numbersOf (pairs : List (Symbol × Nat)) :
    (numbersOf pairs).length = 2 * pairs.length := by
  induction pairs with
  | nil => rfl
  | cons pair pairs ih =>
      show (numbersOf pairs).length + 2 = 2 * (pairs.length + 1)
      omega

/-- Where a pair stands in its row. -/
theorem getElem?_values_sparse (done todo : List (Symbol × Nat)) (pair : Symbol × Nat) :
    (sparse (done ++ pair :: todo)).values[1 + 2 * done.length]? = some pair.1.val ∧
      (sparse (done ++ pair :: todo)).values[1 + 2 * done.length + 1]? = some pair.2 := by
  have hlength := length_numbersOf done
  have hvalues : (sparse (done ++ pair :: todo)).values =
      ((done ++ pair :: todo).length :: numbersOf done) ++ pair.1.val :: pair.2 ::
        numbersOf todo := by
    rw [values, numbersOf_append]
    rfl
  rw [hvalues]
  constructor
  · rw [List.getElem?_append_right (by rw [List.length_cons]; omega), List.length_cons, hlength,
      show 1 + 2 * done.length - (2 * done.length + 1) = 0 by omega]
    rfl
  · rw [List.getElem?_append_right (by rw [List.length_cons]; omega), List.length_cons, hlength,
      show 1 + 2 * done.length + 1 - (2 * done.length + 1) = 1 by omega]
    rfl

/-- The pairs of a row are those of the symbols with a cell other than 0. -/
theorem pairsOf_map (f : Symbol → Nat) :
    pairsOf (alphabet.map f) = (alphabet.filter fun a => f a != 0).map fun a => (a, f a) := by
  have hzip : alphabet.zip (alphabet.map f) = alphabet.map fun a => (a, f a) := by
    rw [List.zip_map_right, List.zip_eq_zipWith, List.zipWith_self, List.map_map]
    rfl
  rw [pairsOf, hzip, List.filter_map]
  rfl

/-- Looking a symbol up among the pairs finds its cell. -/
theorem find?_pairsOf (f : Symbol → Nat) (a : Symbol) :
    (((pairsOf (alphabet.map f)).find? fun pair => pair.1 == a).map (·.2)).getD 0 = f a := by
  rw [pairsOf_map, List.find?_map, Option.map_map]
  show Option.getD (Option.map _ ((alphabet.filter fun b => f b != 0).find? fun b => b == a)) 0 = _
  cases hfind : (alphabet.filter fun b => f b != 0).find? fun b => b == a with
  | none =>
      -- a symbol that is in no pair has the cell 0
      by_contra hne
      have hmem : a ∈ alphabet.filter fun b => f b != 0 :=
        List.mem_filter.2 ⟨mem_alphabet a, by simpa using Ne.symm hne⟩
      exact List.find?_eq_none.1 hfind a hmem (beq_self_eq_true a)
  | some b =>
      have hba : (b == a) = true := List.find?_some (p := fun b => b == a) hfind
      rw [eq_of_beq hba]
      rfl

theorem ofCells_eq_of_pairs {threshold : Nat} {cells : List Nat} (h : pairsOf cells ≠ []) :
    ofCells threshold cells =
      if (pairsOf cells).length > threshold then .dense cells else .sparse (pairsOf cells) := by
  unfold ofCells
  cases hpairs : pairsOf cells with
  | nil => exact absurd hpairs h
  | cons pair pairs => rfl

/-- **A stored row has the cells of the row that was stored.** -/
theorem cellAt_ofCells (threshold : Nat) (f : Symbol → Nat) (a : Symbol) :
    (ofCells threshold (alphabet.map f)).cellAt a = f a := by
  have hfind := find?_pairsOf f a
  by_cases hpairs : pairsOf (alphabet.map f) = []
  · rw [ofCells, hpairs]
    rw [hpairs] at hfind
    exact hfind
  · rw [ofCells_eq_of_pairs hpairs]
    split
    · simp [cellAt, alphabet]
    · exact hfind

theorem wellFormed_ofCells (threshold : Nat) (f : Symbol → Nat) :
    (ofCells threshold (alphabet.map f)).WellFormed := by
  by_cases hpairs : pairsOf (alphabet.map f) = []
  · rw [ofCells, hpairs]
    trivial
  · rw [ofCells_eq_of_pairs hpairs]
    split
    · simp [WellFormed, alphabet]
    · refine ⟨hpairs, ?_⟩
      rw [pairsOf_map, List.length_map]
      exact (List.length_filter_le _ _).trans (by simp [alphabet])

end PackedRow

namespace Dfa

variable {d : Dfa}

/-- Every row of the matrix has a cell for each symbol. -/
theorem exists_of_getElem?_matrix {r : Nat} (hr : r ≤ d.size) :
    ∃ f : Symbol → Nat, d.matrix[r]? = some (alphabet.map f) := by
  cases r with
  | zero => exact ⟨fun _ => 0, rfl⟩
  | succ s => exact ⟨_, getElem?_matrix_succ d ⟨s, hr⟩⟩

/-- **The rows that are stored** have the cells of the matrix. -/
theorem exists_packedRow (hd : d.Separate) (threshold : Nat) (s : Option (Fin d.size)) :
    ∃ row : PackedRow, (d.packedRows threshold)[rowOf s]? = some row ∧ row.WellFormed ∧
      ∀ a : Symbol, row.cellAt a = rowOf (s.bind fun t => d.next t a.toByte) := by
  have hle : rowOf s ≤ d.size := by
    cases s with
    | none => exact Nat.zero_le _
    | some t => exact t.isLt
  obtain ⟨f, hf⟩ := exists_of_getElem?_matrix hle
  refine ⟨PackedRow.ofCells threshold (alphabet.map f), ?_, PackedRow.wellFormed_ofCells _ _, ?_⟩
  · rw [packedRows, List.getElem?_map, hf]
    rfl
  · intro a
    have hcell := lookup_matrix hd s a
    rw [lookup, hf] at hcell
    rw [PackedRow.cellAt_ofCells]
    simpa [alphabet] using hcell

end Dfa

end LineScan
