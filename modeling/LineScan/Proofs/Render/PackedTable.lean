/-
  LineScan.Proofs.Render.PackedTable
  ──────────────────────────────────
  **A COMPRESSED TABLE DECODES TO ITS AUTOMATON.**

  The links of the chain, from the text to the automaton:

      text to program      the text is read as a program     (`read?_render`)
      program to rows      which holds the stored rows       (`holds_program`)
      rows to cells        and returns their cells           (`Holds.call`)
      cells to states      which are those of the matrix     (`exists_packedRow`)

  No loop of the decoder has more rounds than there are symbols, so fuel for
  one more is enough.
-/
import LineScan.Compile
import LineScan.Proofs.Render.PackedProgram

namespace LineScan

open C PackedTable

/-- **The decoder in the text of a compressed table is the automaton's
transition function**, whatever the threshold and the form of the symbols: for
row 0 it returns 0, and for the row of a state the row that the symbol leads
to.  Since it returns, it has not read outside an array. -/
theorem Dfa.packedTable_decodes (nfa : Nfa) (times : Nat) (options : PackedTableOptions)
    (hname : UsableName options.name) :
    let d := nfa.determinize.minimizeTimes times
    ∃ P, C.read? (d.packedTable options) = some P ∧
      ∀ fuel, alphabetSize < fuel → ∀ a : Symbol,
        P.call fuel "yy_next" [0, a.val] = .ok 0 ∧
        ∀ s : Fin d.size,
          P.call fuel "yy_next" [s.val + 1, a.val] = .ok (rowOf (d.next s a.toByte)) := by
  intro d
  have hd : d.Separate := (Dfa.separate_determinize nfa).minimizeTimes times
  have hown : options.name ∉ (decoder options.name).ownNames :=
    fun h => hname.not_used (List.mem_cons_of_mem _ h)
  have hrows : d.packedRows options.threshold ≠ [] := List.cons_ne_nil _ _
  -- one statement for all rows, the one of the dead state included
  have hcall : ∀ (fuel : Nat), alphabetSize < fuel → ∀ (a : Symbol) (s : Option (Fin d.size)),
      (program options.name (d.packedRows options.threshold)).call fuel "yy_next"
        [(rowOf s : Nat), a.val] = .ok (rowOf (s.bind fun t => d.next t a.toByte)) := by
    intro fuel hfuel a s
    obtain ⟨row, hrow, hwell, hcell⟩ := exists_packedRow hd options.threshold s
    rw [(holds_program options.name _).call hrow hwell hown hfuel a, hcell a]
  exact ⟨_, read?_render hname hrows, fun fuel hfuel a =>
    ⟨hcall fuel hfuel a none, fun s => hcall fuel hfuel a (some s)⟩⟩

theorem Dfa.packedTable_decodes_standard :
    UsableName PackedTableOptions.standard.name ∧
    ∃ nfa, Nfa.ofPattern? "[ab]\'" = .ok nfa ∧
      ∃ P, C.read? (nfa.determinize.minimize.packedTable .standard) = some P ∧
        P.call 128 "yy_next" [0, 39] = .ok 0 ∧
        ∀ s : Fin nfa.determinize.minimize.size,
          P.call 128 "yy_next" [s.val + 1, 39] =
            .ok (rowOf (nfa.determinize.minimize.next s 39)) := by
  have hname : UsableName PackedTableOptions.standard.name := by decide +kernel
  have hok : (Nfa.ofPattern? "[ab]\'").isOk = true := by decide +kernel
  cases hnfa : Nfa.ofPattern? "[ab]\'" with
  | error e =>
      rw [hnfa] at hok
      cases hok
  | ok nfa =>
      obtain ⟨P, hP, hcall⟩ := Dfa.packedTable_decodes nfa 1 .standard hname
      obtain ⟨hzero, hstate⟩ := hcall 128 (by decide) 39
      exact ⟨hname, nfa, rfl, P, hP, hzero, hstate⟩

end LineScan
