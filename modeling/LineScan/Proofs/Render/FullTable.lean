/-
  LineScan.Proofs.Render.FullTable
  ────────────────────────────────
  **A FULL TABLE RUNS LIKE ITS AUTOMATON.**

  A reader that knows only how a full table is laid out gets the matrix back
  from the text (`read_render`).  It looks for the rows from the end of the
  text, where no name stands:

      the last line                              closes the table
      the lines before it that end in a comma    are the rows, one each
      the line before those ends in a bracket    and is none of them

  A row is a comment and, between brackets, decimal numerals with a comma
  after each.  With the matrix in hand, a scanner runs like the automaton.
-/
import LineScan.Proofs.Render.Matrix
import LineScan.Proofs.Text.Reading
import LineScan.Render.FullTable

namespace LineScan

namespace FullTable

/-! ## §1. A reader. -/

/-- The brackets around a row, as characters. -/
def bracketChars : TableFormat → Char × Char
  | .c => ('\x7b', '\x7d')
  | .rust => ('[', ']')

/-- What follows the end of a comment. -/
def afterComment : List Char → List Char
  | '*' :: '/' :: rest => rest
  | _ :: rest => afterComment rest
  | [] => []

/-- The cells of a row, from the pieces that commas end: a right-aligned
numeral each, and blanks after the last comma. -/
def readCells : List (List Char) → Option (List Nat)
  | [] => none
  | [last] => if last.all (· == ' ') then some [] else none
  | piece :: rest => do
      let cell ← decimal? (piece.dropWhile (· == ' '))
      let cells ← readCells rest
      return cell :: cells

/-- The cells of the line of a row: what stands between its brackets. -/
def readRow (format : TableFormat) (line : List Char) : Option (List Nat) :=
  match line with
  | '/' :: '*' :: comment =>
      let brackets := bracketChars format
      match (afterComment comment).dropWhile (· == ' ') with
      | [] => none
      | first :: text =>
          if first = brackets.1 ∧ text.dropWhile (· != brackets.2) = [brackets.2, ','] then
            readCells ((text.takeWhile (· != brackets.2)).splitOn ',')
          else none
  | _ => none

/-- The lines of the rows, found from the end of the text. -/
def rowTexts (text : String) : List (List Char) :=
  (((text.toList.splitOn '\n').reverse.drop 2).takeWhile fun line =>
    line.getLast? == some ',').reverse

/-- **The rows of a full table.** -/
def read (format : TableFormat) (text : String) : Option (List (List Nat)) :=
  (rowTexts text).mapM (readRow format)

/-! ## §2. One row. -/

theorem afterComment_append {cs : List Char} (h : '*' ∉ cs) (rest : List Char) :
    afterComment (cs ++ '*' :: '/' :: rest) = rest := by
  induction cs with
  | nil => rfl
  | cons c cs ih =>
      have hc : c ≠ '*' := fun hc => h (hc ▸ List.mem_cons_self)
      rw [List.cons_append, afterComment]
      · exact ih fun hmem => h (List.mem_cons_of_mem _ hmem)
      · rintro rest' rfl _
        exact hc rfl

theorem not_mem_cells {c : Char} (hdigit : c.isDigit = false) (hblank : c ≠ ' ') (hcomma : c ≠ ',')
    (cells : List Nat) : c ∉ (String.join (cells.map cellText)).toList := by
  rw [String.toList_join, List.flatMap_map, List.mem_flatMap]
  rintro ⟨cell, _, hc⟩
  rw [cellText, String.toList_append, List.mem_append] at hc
  rcases hc with hc | hc
  · exact not_mem_padLeft hdigit hblank 5 cell hc
  · rcases List.mem_cons.1 hc with hc | hc
    · exact hcomma hc
    · exact hblank (List.mem_singleton.1 hc)

/-- A cell with the blank before it: a numeral at the end of some blanks, then
a comma, then the blank before the next cell. -/
theorem blank_cons_cells (cell : Nat) (cells : List Nat) :
    ' ' :: (String.join ((cell :: cells).map cellText)).toList =
      (List.replicate (5 - (Nat.toDigits 10 cell).length + 1) ' ' ++ Nat.toDigits 10 cell) ++
        ',' :: ' ' :: (String.join (cells.map cellText)).toList := by
  have hcell : (cellText cell).toList = (padLeft 5 ' ' cell).toList ++ [',', ' '] := by
    rw [cellText, String.toList_append]
    rfl
  rw [List.map_cons, String.join_cons, String.toList_append, hcell, toList_padLeft,
    List.replicate_succ]
  simp only [List.cons_append, List.append_assoc, List.nil_append]

/-- **The cells of a row** are read as they were written. -/
theorem readCells_splitOn (cells : List Nat) :
    readCells ((' ' :: (String.join (cells.map cellText)).toList).splitOn ',') = some cells := by
  induction cells with
  | nil => rfl
  | cons cell cells ih =>
      have hcomma : ',' ∉ List.replicate (5 - (Nat.toDigits 10 cell).length + 1) ' ' ++
          Nat.toDigits 10 cell := by
        rw [List.mem_append]
        rintro (h | h)
        · cases List.eq_of_mem_replicate h
        · exact not_mem_toDigits (by decide) cell h
      rw [blank_cons_cells, List.splitOn_append_cons_self_of_not_mem hcomma]
      cases hsplit : (' ' :: (String.join (cells.map cellText)).toList).splitOn ',' with
      | nil => exact absurd hsplit (List.splitOn_ne_nil _ _)
      | cons piece rest =>
          rw [hsplit] at ih
          rw [readCells, dropWhile_blank_toDigits, decimal?_toDigits, ih]
          · rfl
          · rintro h
            cases h

/-- **A line of the right layout** is read as its cells are. -/
theorem readRow_layout {format : TableFormat} {comment content : List Char}
    (hcomment : '*' ∉ comment) (hcontent : (bracketChars format).2 ∉ content) :
    readRow format ('/' :: '*' :: (comment ++ '*' :: '/' :: ' ' :: (bracketChars format).1 ::
      (content ++ [(bracketChars format).2, ',']))) = readCells (content.splitOn ',') := by
  have hopen : ((bracketChars format).1 == ' ') = false := by cases format <;> rfl
  have hstop : ¬ ((bracketChars format).2 != (bracketChars format).2) = true := by simp
  have hgo : ∀ c ∈ content, (c != (bracketChars format).2) = true := by
    intro c hc
    rw [bne_iff_ne]
    exact fun h => hcontent (h ▸ hc)
  have hblank : ∀ text, (' ' :: (bracketChars format).1 :: text).dropWhile (· == ' ') =
      (bracketChars format).1 :: text := by
    intro text
    rw [List.dropWhile_cons_of_pos rfl, List.dropWhile_cons_of_neg (by rw [hopen]; decide)]
  unfold readRow
  simp only [afterComment_append hcomment, hblank]
  rw [List.dropWhile_append_of_pos hgo, List.takeWhile_append_of_pos hgo, List.dropWhile_cons,
    if_neg hstop, List.takeWhile_cons, if_neg hstop, List.append_nil, if_pos ⟨trivial, rfl⟩]

/-- The line of a row: a comment, the cells between brackets, a comma. -/
theorem toList_rowLine (format : TableFormat) (cells : List Nat) (number : Nat) :
    (rowLine format cells number).toList =
      '/' :: '*' :: ((' ' :: (padLeft 5 '0' number).toList ++ [' ']) ++ '*' :: '/' :: ' ' ::
        (bracketChars format).1 :: ((' ' :: (String.join (cells.map cellText)).toList) ++
          [(bracketChars format).2, ','])) := by
  cases format <;> simp [rowLine, brackets, bracketChars]

/-- **A row is read as it was written.** -/
theorem readRow_rowLine (format : TableFormat) (cells : List Nat) (number : Nat) :
    readRow format (rowLine format cells number).toList = some cells := by
  have hnumber : '*' ∉ (padLeft 5 '0' number).toList :=
    not_mem_padLeft (by decide) (by decide) 5 number
  have hclose : (bracketChars format).2 ∉ (String.join (cells.map cellText)).toList := by
    cases format <;> exact not_mem_cells (by decide) (by decide) (by decide) cells
  rw [toList_rowLine, readRow_layout, readCells_splitOn]
  · simp [hnumber]
  · rw [List.mem_cons, not_or]
    exact ⟨by cases format <;> decide, hclose⟩

theorem newline_not_mem_rowLine (format : TableFormat) (cells : List Nat) (number : Nat) :
    '\n' ∉ (rowLine format cells number).toList := by
  have hnumber : '\n' ∉ (padLeft 5 '0' number).toList :=
    not_mem_padLeft (by decide) (by decide) 5 number
  have hcells : '\n' ∉ (String.join (cells.map cellText)).toList :=
    not_mem_cells (by decide) (by decide) (by decide) cells
  rw [toList_rowLine]
  cases format <;> simp [bracketChars, hnumber, hcells, -String.toList_join]

theorem getLast?_rowLine (format : TableFormat) (cells : List Nat) (number : Nat) :
    (rowLine format cells number).toList.getLast? = some ',' := by
  rw [rowLine, String.toList_append, List.getLast?_append]
  rfl

/-! ## §3. The whole text. -/

/-- The text before the rows ends in a line that ends in an opening bracket. -/
theorem exists_unlines_opening (options : FullTableOptions) (rowCount : Nat) :
    ∃ cs, (unlines (opening options rowCount)).toList =
      cs ++ [(bracketChars options.format).1] ++ ['\n'] := by
  have hlast : ∀ (front : List String) (start stop : String) (tail : List Char) (c : Char),
      stop.toList = tail ++ [c] →
      (unlines (front ++ [start ++ stop])).toList =
        ((unlines front).toList ++ start.toList ++ tail) ++ [c] ++ ['\n'] := by
    intro front start stop tail c hstop
    rw [unlines_append, String.toList_append, toList_unlines [start ++ stop],
      List.flatMap_singleton, String.toList_append, hstop]
    simp only [List.append_assoc]
  unfold opening
  split
  case h_1 hc =>
      rw [hc]
      exact ⟨_, hlast [_, _, _] _ "] = \x7b" [']', ' ', '=', ' '] '\x7b' rfl⟩
  case h_2 hc =>
      rw [hc]
      exact ⟨_, hlast [_, _, _, _, _, _, _, _] _ "] = [" [']', ' ', '=', ' '] '[' rfl⟩

theorem newline_not_mem_of_mem_rowLines {format : TableFormat} {rows : List (List Nat)}
    {line : String} (h : line ∈ rowLines format rows) : '\n' ∉ line.toList := by
  obtain ⟨⟨cells, number⟩, _, rfl⟩ := List.mem_map.1 h
  exact newline_not_mem_rowLine format cells number

theorem getLast?_of_mem_rowLines {format : TableFormat} {rows : List (List Nat)} {line : String}
    (h : line ∈ rowLines format rows) : line.toList.getLast? = some ',' := by
  obtain ⟨⟨cells, number⟩, _, rfl⟩ := List.mem_map.1 h
  exact getLast?_rowLine format cells number

/-- **The lines of a table**: those before the rows, of which the last one
ends in a bracket, the rows, the closing line, and an empty one after the last
line feed. -/
theorem exists_splitOn_render (options : FullTableOptions) (rows : List (List Nat)) :
    ∃ (front : List (List Char)) (last : List Char),
      (render options rows).toList.splitOn '\n' =
        front ++ [last ++ [(bracketChars options.format).1]] ++
          (rowLines options.format rows).map String.toList ++
          [(closing options.format).toList, []] := by
  obtain ⟨cs, hcs⟩ := exists_unlines_opening options rows.length
  have hbracket : (bracketChars options.format).1 ≠ '\n' := by cases options.format <;> decide
  have hclosing : (unlines [closing options.format]).toList.splitOn '\n' =
      [(closing options.format).toList, []] := by
    cases options.format <;> rfl
  obtain ⟨front, last, hfront⟩ := exists_splitOn_append_singleton hbracket cs
  refine ⟨front, last, ?_⟩
  rw [render, unlines_append, unlines_append, String.toList_append, String.toList_append, hcs,
    List.append_assoc, List.append_assoc, List.singleton_append, List.splitOn_append_cons_self,
    hfront, splitOn_unlines fun line hline => newline_not_mem_of_mem_rowLines hline, hclosing]
  simp only [List.append_assoc]

/-- **The lines of the rows are found.** -/
theorem rowTexts_render (options : FullTableOptions) (rows : List (List Nat)) :
    rowTexts (render options rows) = (rowLines options.format rows).map String.toList := by
  obtain ⟨front, last, hlines⟩ := exists_splitOn_render options rows
  have hgo : ∀ line ∈ ((rowLines options.format rows).map String.toList).reverse,
      (line.getLast? == some ',') = true := by
    intro line hline
    obtain ⟨text, htext, rfl⟩ := List.mem_map.1 (List.mem_reverse.1 hline)
    rw [getLast?_of_mem_rowLines htext]
    rfl
  have hstop : ¬ ((last ++ [(bracketChars options.format).1]).getLast? == some ',') = true := by
    rw [List.getLast?_concat]
    cases options.format <;> decide
  unfold rowTexts
  rw [hlines, List.reverse_append, List.reverse_append, List.reverse_append]
  show ((((rowLines options.format rows).map String.toList).reverse ++
    ((last ++ [(bracketChars options.format).1]) :: front.reverse)).takeWhile _).reverse = _
  rw [List.takeWhile_append_of_pos hgo, List.takeWhile_cons, if_neg hstop, List.append_nil,
    List.reverse_reverse]

theorem mapM_readRow (format : TableFormat) (rows : List (List Nat)) (number : Nat) :
    ((rows.zipIdx number).map fun (cells, k) => (rowLine format cells k).toList).mapM
      (readRow format) = some rows := by
  induction rows generalizing number with
  | nil => rfl
  | cons cells rows ih =>
      rw [List.zipIdx_cons, List.map_cons, List.mapM_cons, ih, readRow_rowLine]
      rfl

/-- **The rows of a table are read as they were written.** -/
theorem read_render (options : FullTableOptions) (rows : List (List Nat)) :
    read options.format (render options rows) = some rows := by
  rw [read, rowTexts_render, rowLines, List.map_map]
  exact mapM_readRow options.format rows 0

end FullTable

/-! ## §4. Scanning. -/

/-- **A scanner that reads a full table runs like the automaton.**  Whatever
the name and the language, the text holds the matrix: one row for each state
and one before them, each with a cell for every symbol.  From row 1, a word
leads to the row above the state in which the automaton's run ends, and to row
0 if the run does not get to its end; from row 0, every word leads to row 0. -/
theorem Dfa.fullTable_drives (nfa : Nfa) (times : Nat) (options : FullTableOptions) :
    let d := nfa.determinize.minimizeTimes times
    ∃ table, FullTable.read options.format (d.fullTable options) = some table ∧
      table = d.matrix ∧ table.length = d.size + 1 ∧
      (∀ row ∈ table, row.length = alphabetSize) ∧
      (∀ w : List Symbol,
        drive table 1 w = some (rowOf (d.runFrom d.start (w.map Symbol.toByte)))) ∧
      ∀ w : List Symbol, drive table 0 w = some 0 := by
  intro d
  have hd : d.Separate := (Dfa.separate_determinize nfa).minimizeTimes times
  exact ⟨d.matrix, FullTable.read_render options d.matrix, rfl, d.length_matrix,
    fun _ hrow => length_of_mem_matrix hrow,
    fun w => drive_matrix hd (some d.start) w, fun w => drive_matrix hd none w⟩

end LineScan
