/-
  LineScan.Proofs.Render.CellWidth
  ────────────────────────────────
  **HOW WIDE THE CELLS OF A TABLE ARE.**

  Cells hold row numbers, so no cell is above the number of states; and the
  last state is reached, so some cell is the number of states, unless there is
  only the start.  A full table of format `TableFormat.rust` declares its cells
  as 16-bit numbers.  They are, exactly for automata of fewer than `2 ^ 16`
  states (`compile_cells_fit_iff`): nothing checks the number of states before
  the text is written, and there are short patterns with as many
  (`compile_cells_too_wide`).
-/
import LineScan.Proofs.Compile.ManyStates
import LineScan.Proofs.Render.FullTable

namespace LineScan

/-! ## §1. The largest cell. -/

theorem rowOf_le {size : Nat} (s : Option (Fin size)) : rowOf s ≤ size := by
  cases s with
  | none => exact Nat.zero_le size
  | some s => exact s.isLt

namespace Dfa

variable {d : Dfa}

/-- **No cell is above the number of states.** -/
theorem cell_le_size (hd : d.Separate) {row : List Nat} (hrow : row ∈ d.matrix) {cell : Nat}
    (hcell : cell ∈ row) : cell ≤ d.size := by
  rcases List.mem_cons.1 hrow with rfl | hrow
  · obtain ⟨a, _, rfl⟩ := List.mem_map.1 hcell
    exact Nat.zero_le _
  · rw [d.toList_states, List.map_map] at hrow
    obtain ⟨s, _, rfl⟩ := List.mem_map.1 hrow
    obtain ⟨a, _, rfl⟩ := List.mem_map.1 hcell
    rw [(hd s).cell_eq]
    exact rowOf_le _

/-- The cell of a transition. -/
theorem exists_cell_of_next (hd : d.Separate) {s t : Fin d.size} {a : Symbol}
    (h : d.next s a.toByte = some t) : ∃ row ∈ d.matrix, t.val + 1 ∈ row := by
  have hlookup := lookup_matrix hd (some s) a
  rw [rowOf_some, Option.bind_some, h, rowOf_some] at hlookup
  unfold lookup at hlookup
  rw [Option.bind_eq_some_iff] at hlookup
  obtain ⟨row, hrow, hcell⟩ := hlookup
  exact ⟨row, List.mem_of_getElem? hrow, List.mem_of_getElem? hcell⟩

/-- Another state than the start is led to by some transition. -/
theorem Reachable.exists_next {t : Fin d.size} (h : d.Reachable t) (ht : t ≠ d.start) :
    ∃ (s : Fin d.size) (a : Symbol), d.next s a.toByte = some t := by
  obtain ⟨w, hw⟩ := h
  -- the last symbol of the word makes the transition
  rcases List.eq_nil_or_concat' w with rfl | ⟨front, a, rfl⟩
  · exact absurd (Option.some.inj hw).symm ht
  · rw [List.map_append, runFrom_append, Option.bind_eq_some_iff] at hw
    obtain ⟨s, _, hs⟩ := hw
    rw [List.map_singleton, runFrom_cons, Option.bind_eq_some_iff] at hs
    obtain ⟨t', ht', heq⟩ := hs
    exact ⟨s, a, by rw [ht', ← heq]; rfl⟩

/-- **Some cell is the number of states**, unless there is only the start. -/
theorem exists_cell_eq_size (hd : d.WellFormed) (h : 1 < d.size) :
    ∃ row ∈ d.matrix, d.size ∈ row := by
  let last : Fin d.size := ⟨d.size - 1, by omega⟩
  have hlast : last ≠ d.start := by
    intro heq
    have hval : d.size - 1 = 0 := congrArg Fin.val heq
    omega
  obtain ⟨s, a, hnext⟩ := (hd.reachable last).exists_next hlast
  have hrow := exists_cell_of_next hd.separate hnext
  have hval : last.val + 1 = d.size := Nat.sub_add_cancel d.size_pos
  rwa [hval] at hrow

/-- **Cells are bounded as the number of states is.** -/
theorem forall_cell_lt_iff (hd : d.WellFormed) {n : Nat} (hn : 1 < n) :
    (∀ row ∈ d.matrix, ∀ cell ∈ row, cell < n) ↔ d.size < n := by
  constructor
  · intro h
    by_cases hsize : 1 < d.size
    · obtain ⟨row, hrow, hcell⟩ := exists_cell_eq_size hd hsize
      exact h row hrow d.size hcell
    · omega
  · intro h row hrow cell hcell
    exact Nat.lt_of_le_of_lt (cell_le_size hd.separate hrow hcell) h

end Dfa

/-! ## §2. Tables of patterns. -/

/-- **When the cells of a table fit the type that it declares.**  The text of
such a table holds a row for each state and one before them; no cell is above
the number of states, and all of them are 16-bit numbers exactly when there are
fewer than `2 ^ 16` states. -/
theorem compile_cells_fit_iff {pattern : String} {d : Dfa} (h : compile pattern = .ok d)
    (name : String) :
    ∃ table, FullTable.read .rust (d.fullTable ⟨name, .rust⟩) = some table ∧
      table.length = d.size + 1 ∧
      (∀ row ∈ table, ∀ cell ∈ row, cell ≤ d.size) ∧
      ((∀ row ∈ table, ∀ cell ∈ row, cell < UInt16.size) ↔ d.size < UInt16.size) := by
  have hd := wellFormed_of_compile h
  have hread : FullTable.read .rust (d.fullTable ⟨name, .rust⟩) = some d.matrix :=
    FullTable.read_render ⟨name, .rust⟩ d.matrix
  refine ⟨d.matrix, hread, d.length_matrix, ?_, Dfa.forall_cell_lt_iff hd (by decide)⟩
  intro row hrow cell hcell
  exact Dfa.cell_le_size hd.separate hrow hcell

/-- A pattern of 66 characters whose automaton has to know the last sixteen
letters: a cell of its table is no 16-bit number. -/
theorem compile_cells_too_wide :
    ∃ d table, compile "[ab]*a[ab][ab][ab][ab][ab][ab][ab][ab][ab][ab][ab][ab][ab][ab][ab]" = .ok d ∧
      FullTable.read .rust (d.fullTable ⟨"scan", .rust⟩) = some table ∧
      ∃ row ∈ table, ∃ cell ∈ row, UInt16.size ≤ cell := by
  have hrules : readRules
      "[ab]*a[ab][ab][ab][ab][ab][ab][ab][ab][ab][ab][ab][ab][ab][ab][ab]" =
        .ok [⟨false, .lookBack 15, false⟩] := by
    decide +kernel
  obtain ⟨nfa, hnfa, _⟩ := Nfa.exists_ofPattern hrules
  have hd : compile _ = .ok nfa.determinize.minimize := compile_eq_ok_iff.2 ⟨nfa, hnfa, rfl⟩
  have hsize : UInt16.size ≤ nfa.determinize.minimize.size := two_pow_le_size hrules hd
  have hcell := Dfa.exists_cell_eq_size (wellFormed_of_compile hd)
    (Nat.lt_of_lt_of_le (by decide) hsize)
  obtain ⟨row, hrow, hmem⟩ := hcell
  exact ⟨_, _, hd, FullTable.read_render ⟨"scan", .rust⟩ _, row, hrow, _, hmem, hsize⟩

/-- The shortest pattern of that kind, with two states. -/
theorem compile_cells_fit_iff_two :
    ∃ d table, compile "[ab]*a" = .ok d ∧ d.size < UInt16.size ∧
      FullTable.read .rust (d.fullTable ⟨"scan", .rust⟩) = some table ∧
      ∀ row ∈ table, ∀ cell ∈ row, cell < UInt16.size := by
  have hcheck : (compile "[ab]*a").toOption.any (fun d => decide (d.size = 2)) = true := by
    rw [toOption_compile]
    decide +kernel
  obtain ⟨d, hd, hsize⟩ := exists_of_compile_any hcheck
  have hsmall : d.size < UInt16.size := by
    rw [of_decide_eq_true hsize]
    decide
  obtain ⟨table, hread, _, _, hfit⟩ := compile_cells_fit_iff hd "scan"
  exact ⟨d, table, hd, hsmall, hread, hfit.2 hsmall⟩

end LineScan
