/-
  LineScan.Proofs.Render.PackedSize
  ─────────────────────────────────
  **HOW LARGE A COMPRESSED TABLE IS.**

  The text of a compressed table begins with the arrays of its rows
  (`render_eq`), whatever the name of the table is.  Between the braces of an
  array stand integers (`integers?_rowArray`):

      sparse   a count, then two integers for each transition
      dense    a zero, then all cells

  The event of writing a table reports a size (`reportedCells`).  It counts
  every integer of a dense row, but only one for each pair of a sparse row, so
  it is too small by one for each transition that is stored in a pair.  The
  reported size is the size of the arrays exactly if no row is sparse
  (`packEvent_cells_iff`); even a table with one transition has such a row
  (`packEvent_cells_too_few`).
-/
import LineScan.Proofs.Compile.Minimal
import LineScan.Proofs.Render.PackedProgram
import Mathlib.Algebra.Ring.Nat

namespace LineScan

open C

namespace PackedTable

/-! ## §1. The arrays in the text. -/

/-- An array of cells, as it is written. -/
structure ArrayText where
  /-- Its name. -/
  name : String
  /-- What stands between its braces. -/
  list : String
deriving DecidableEq

namespace ArrayText

/-- The whole declaration. -/
def text (a : ArrayText) : String :=
  declarator ++ a.name ++ "[] = \x7b" ++ a.list ++ "\x7d;" ++ "\n"

/-- **The integers between the braces.** -/
def integers? (a : ArrayText) : Option (List Nat) := do
  let ls ← lexemes? a.list
  match ← items? cell? (ls ++ [.mark .closeBrace]) with
  | (values, []) => return values
  | _ => none

end ArrayText

/-- What stands between the braces of the array of a row. -/
def listText (numbers : Bool) (row : PackedRow) : String :=
  " " ++ leadText row ++ "," ++ "\n" ++ unlines (entryLines (entryTexts numbers row))

/-- The array of a row; none for an empty one. -/
def rowArray (options : PackedTableOptions) (number : Nat) : PackedRow → List ArrayText
  | .empty => []
  | row => [⟨rowName options number, listText options.numbers row⟩]

/-- The arrays of all rows. -/
def rowArrays (options : PackedTableOptions) (rows : List PackedRow) : List ArrayText :=
  rows.zipIdx.flatMap fun (row, number) => rowArray options number row

/-- What comes after the arrays of the rows. -/
def afterArrays (options : PackedTableOptions) (rows : List PackedRow) : String :=
  unlines ([""] ++ pointerLines options rows ++ [""] ++ decoderLines options)

section

variable (options : PackedTableOptions) (number : Nat) {row : PackedRow}

theorem rowArray_of_ne_empty (h : row ≠ .empty) :
    rowArray options number row = [⟨rowName options number, listText options.numbers row⟩] := by
  cases row with
  | empty => exact absurd rfl h
  | sparse pairs => rfl
  | dense cells => rfl

theorem rowLines_of_ne_empty (h : row ≠ .empty) :
    rowLines options number row =
      [declarator ++ rowName options number ++ "[] = \x7b " ++ leadText row ++ ","] ++
        entryLines (entryTexts options.numbers row) ++ ["\x7d;"] := by
  cases row with
  | empty => exact absurd rfl h
  | sparse pairs => rfl
  | dense cells => rfl

/-- The lines of a row are its array. -/
theorem unlines_rowLines (row : PackedRow) :
    unlines (rowLines options number row) =
      String.join ((rowArray options number row).map ArrayText.text) := by
  by_cases h : row = .empty
  · rw [h]
    rfl
  · have hline : ∀ line : String, unlines [line] = line ++ "\n" := fun line => String.empty_append
    have hbrace : "[] = \x7b " = "[] = \x7b" ++ " " := by decide
    have hjoin : ∀ text : String, String.join [text] = text := fun text => String.empty_append
    rw [rowLines_of_ne_empty options number h, rowArray_of_ne_empty options number h,
      List.map_singleton, hjoin, ArrayText.text, listText, unlines_append, unlines_append, hline,
      hline, hbrace]
    simp only [String.append_assoc]

end

/-- **The text of a table begins with the arrays of its rows.** -/
theorem render_eq (options : PackedTableOptions) (rows : List PackedRow) :
    render options rows =
      String.join ((rowArrays options rows).map ArrayText.text) ++ afterArrays options rows := by
  have hrows : ∀ entries : List (PackedRow × Nat),
      unlines (entries.flatMap fun (row, number) => rowLines options number row) =
        String.join ((entries.flatMap fun (row, number) =>
          rowArray options number row).map ArrayText.text) := by
    intro entries
    induction entries with
    | nil => rfl
    | cons entry entries ih =>
        rw [List.flatMap_cons, List.flatMap_cons, unlines_append, List.map_append,
          String.join_append, ih, unlines_rowLines]
  rw [render, rowArrays, afterArrays, ← hrows]
  simp only [List.append_assoc, unlines_append]

/-! ## §2. The integers of an array. -/

/-- **What stands between the braces** are the values of the row, each with a
comma after it. -/
theorem scans_listText (numbers : Bool) {row : PackedRow} (h : row ≠ .empty) :
    Scans .blank (listText numbers row).toList (row.values.flatMap valueLexemes) .blank := by
  have hlist : ∀ (v : Nat) (texts : List String) (rest : List Nat),
      Prints (entryLines texts) (rest.flatMap valueLexemes) →
      Scans .blank (" " ++ toString v ++ "," ++ "\n" ++ unlines (entryLines texts)).toList
        ((v :: rest).flatMap valueLexemes) .blank := by
    intro v texts rest hprints
    have hblank : Scans .blank [' '] [] .blank := rfl
    have hbreak : Scans .blank ['\n'] [] .blank := rfl
    have htext : (" " ++ toString v ++ "," ++ "\n" ++ unlines (entryLines texts)).toList =
        [' '] ++ (((toString v).toList ++ [',']) ++ (['\n'] ++
          (unlines (entryLines texts)).toList)) := by
      simp only [String.toList_append, List.append_assoc]
      rfl
    rw [htext, List.flatMap_cons]
    exact hblank.append ((scans_value v).append (hbreak.append hprints))
  cases row with
  | empty => exact absurd rfl h
  | sparse pairs => exact hlist _ _ _ (prints_pairs numbers pairs)
  | dense cells => exact hlist 0 _ _ (prints_cells numbers cells)

/-- **The integers of an array** are the values of its row. -/
theorem integers?_listText (name : String) (numbers : Bool) {row : PackedRow} (h : row ≠ .empty) :
    ArrayText.integers? ⟨name, listText numbers row⟩ = some row.values := by
  have hlexemes : lexemes? (listText numbers row) = some (row.values.flatMap valueLexemes) := by
    rw [lexemes?, show scan? .blank (listText numbers row).toList = _ from scans_listText numbers h]
  have hitems := items?_flatMap cell? .number (fun _ => rfl) rfl row.values []
  rw [ArrayText.integers?, hlexemes]
  show (items? cell? (row.values.flatMap (fun v => [.number v, .mark .comma]) ++
    [.mark .closeBrace]) >>= _) = _
  rw [hitems]
  rfl

theorem mapM_integers?_rowArray (options : PackedTableOptions) (number : Nat) (row : PackedRow) :
    ∃ lists, (rowArray options number row).mapM ArrayText.integers? = some lists ∧
      lists.flatten = row.values := by
  by_cases h : row = .empty
  · rw [h]
    exact ⟨[], rfl, rfl⟩
  · refine ⟨[row.values], ?_, List.flatten_singleton⟩
    rw [rowArray_of_ne_empty options number h, List.mapM_cons, integers?_listText _ _ h]
    rfl

/-- **The integers of all arrays** are the values of the rows. -/
theorem exists_integers (options : PackedTableOptions) (rows : List PackedRow) :
    ∃ lists, (rowArrays options rows).mapM ArrayText.integers? = some lists ∧
      lists.flatten = rows.flatMap PackedRow.values := by
  have hall : ∀ start : Nat, ∃ lists,
      ((rows.zipIdx start).flatMap fun (row, number) => rowArray options number row).mapM
        ArrayText.integers? = some lists ∧ lists.flatten = rows.flatMap PackedRow.values := by
    induction rows with
    | nil => exact fun _ => ⟨[], rfl, rfl⟩
    | cons row rows ih =>
        intro start
        obtain ⟨first, hfirst, hvalues⟩ := mapM_integers?_rowArray options start row
        obtain ⟨lists, hlists, hrest⟩ := ih (start + 1)
        refine ⟨first ++ lists, ?_, by
          rw [List.flatten_append, hvalues, hrest, List.flatMap_cons]⟩
        rw [List.zipIdx_cons, List.flatMap_cons, List.mapM_append]
        show ((rowArray options start row).mapM ArrayText.integers? >>= _) = _
        rw [hfirst]
        show ((_ : List ArrayText).mapM ArrayText.integers? >>= _) = _
        rw [hlists]
        rfl
  exact hall 0

/-! ## §3. Sizes. -/

/-- The pairs of a row that is stored in pairs. -/
def pairCount : PackedRow → Nat
  | .sparse pairs => pairs.length
  | .empty | .dense _ => 0

/-- What is reported for a row leaves one integer of each pair out. -/
theorem length_values (row : PackedRow) :
    row.values.length = reportedCells.rowSize row + pairCount row := by
  cases row with
  | empty => rfl
  | sparse pairs =>
      have hnumbers := PackedRow.length_numbersOf pairs
      show (PackedRow.numbersOf pairs).length + 1 = 1 + pairs.length + pairs.length
      omega
  | dense cells => exact Nat.add_comm _ _

theorem length_flatMap_values (rows : List PackedRow) :
    (rows.flatMap PackedRow.values).length = reportedCells rows + (rows.map pairCount).sum := by
  induction rows with
  | nil => rfl
  | cons row rows ih =>
      have hreported : reportedCells (row :: rows) =
          reportedCells.rowSize row + reportedCells rows := rfl
      rw [List.flatMap_cons, List.length_append, ih, length_values, hreported, List.map_cons,
        List.sum_cons]
      omega

/-- The transitions of a row of the matrix. -/
def transitionsIn (cells : List Nat) : Nat := cells.countP (· != 0)

theorem length_pairsOf {cells : List Nat} (h : cells.length = alphabetSize) :
    (PackedRow.pairsOf cells).length = transitionsIn cells := by
  have hcells : (alphabet.zip cells).map Prod.snd = cells :=
    List.map_snd_zip (by simp [h, alphabet])
  unfold PackedRow.pairsOf transitionsIn
  rw [← List.countP_eq_length_filter]
  conv_rhs => rw [← hcells, List.countP_map]
  rfl

/-- The transitions of a row that are stored in pairs: all of them, unless
there are more than the threshold. -/
def pairedIn (threshold : Nat) (cells : List Nat) : Nat :=
  if transitionsIn cells ≤ threshold then transitionsIn cells else 0

theorem pairedIn_eq_zero_iff {threshold : Nat} {cells : List Nat} :
    pairedIn threshold cells = 0 ↔ transitionsIn cells = 0 ∨ threshold < transitionsIn cells := by
  unfold pairedIn
  split <;> omega

theorem pairCount_ofCells (threshold : Nat) {cells : List Nat} (h : cells.length = alphabetSize) :
    pairCount (PackedRow.ofCells threshold cells) = pairedIn threshold cells := by
  have hlength := length_pairsOf h
  unfold pairedIn
  by_cases hpairs : PackedRow.pairsOf cells = []
  · rw [hpairs] at hlength
    rw [PackedRow.ofCells, hpairs, ← hlength]
    exact (ite_self _).symm
  · rw [PackedRow.ofCells_eq_of_pairs hpairs, hlength]
    by_cases hdense : transitionsIn cells > threshold
    · rw [if_pos hdense, if_neg (Nat.not_le.2 hdense)]
      rfl
    · rw [if_neg hdense, if_pos (Nat.not_lt.1 hdense)]
      exact hlength

end PackedTable

open PackedTable

/-! ## §4. The reported size. -/

namespace Dfa

variable {d : Dfa}

theorem map_pairCount_packedRows (d : Dfa) (threshold : Nat) :
    (d.packedRows threshold).map pairCount = d.matrix.map (pairedIn threshold) := by
  rw [packedRows, List.map_map]
  exact List.map_congr_left fun cells hcells =>
    pairCount_ofCells threshold (length_of_mem_matrix hcells)

/-- **How the reported size of a table compares with its arrays**, for every
automaton and all options.  The arrays of the rows are what the text begins
with.  The event leaves out one integer for each transition that is stored in a
pair, so what it reports is the number of integers in the arrays exactly if
every row with transitions has more of them than the threshold. -/
theorem packEvent_cells_iff (d : Dfa) (options : PackedTableOptions) :
    let arrays := rowArrays options (d.packedRows options.threshold)
    d.packedTable options = String.join (arrays.map ArrayText.text) ++
        afterArrays options (d.packedRows options.threshold) ∧
    ∃ lists cells, arrays.mapM ArrayText.integers? = some lists ∧
      d.packEvent options = .tablePacked (d.size + 1) cells options.threshold ∧
      lists.flatten.length = cells + (d.matrix.map (pairedIn options.threshold)).sum ∧
      (cells = lists.flatten.length ↔
        ∀ row ∈ d.matrix, transitionsIn row = 0 ∨ options.threshold < transitionsIn row) := by
  intro arrays
  obtain ⟨lists, hlists, hvalues⟩ := exists_integers options (d.packedRows options.threshold)
  have hlength : lists.flatten.length = reportedCells (d.packedRows options.threshold) +
      (d.matrix.map (pairedIn options.threshold)).sum := by
    rw [hvalues, length_flatMap_values, map_pairCount_packedRows]
  refine ⟨render_eq options _, lists, _, hlists, by rw [packEvent, length_matrix], hlength, ?_⟩
  rw [hlength, left_eq_add, List.sum_eq_zero_iff_forall_eq_nat]
  simp only [List.forall_mem_map, pairedIn_eq_zero_iff]

end Dfa

/-- A pattern with one transition: three integers are written, two are
reported. -/
theorem packEvent_cells_too_few :
    ∃ d lists, compile "a" = .ok d ∧
      (rowArrays .standard (d.packedRows 4)).mapM ArrayText.integers? = some lists ∧
      lists.flatten = [1, 97, 2] ∧ d.packEvent .standard = .tablePacked 3 2 4 := by
  have hcheck : (compile "a").toOption.any (fun d =>
      decide (d.packedRows 4 = [.empty, .sparse [(97, 2)], .empty])) = true := by
    rw [toOption_compile]
    decide +kernel
  obtain ⟨d, hd, hrows⟩ := exists_of_compile_any hcheck
  have hrows : d.packedRows 4 = [.empty, .sparse [(97, 2)], .empty] := of_decide_eq_true hrows
  obtain ⟨lists, hlists, hvalues⟩ := exists_integers .standard (d.packedRows 4)
  have hlength : d.matrix.length = 3 := by
    rw [← List.length_map (PackedRow.ofCells 4)]
    exact congrArg List.length hrows
  have hcells : reportedCells (d.packedRows 4) = 2 := congrArg reportedCells hrows
  refine ⟨d, lists, hd, hlists, by rw [hvalues, hrows]; rfl, ?_⟩
  show Event.tablePacked d.matrix.length (reportedCells (d.packedRows 4)) 4 = _
  rw [hlength, hcells]

end LineScan
