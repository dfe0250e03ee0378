/-
  LineScan.Proofs.Plain.Compile
  ─────────────────────────────
  **COMPILING NEVER MISUSES A NUMBER.**

  The chain from a pattern to its automaton, every stage of it on plain
  numbers and with every access checked:

      assemble?     reads the pattern and builds its nodes in one go
      finish        closes the gaps between them
      determinize?  looks up nodes and states, fills sets of nodes
      minimize?     looks up states and blocks, fills sets of symbols

  It ends where the chain without checks ends.  So the only way to fail is a
  text that is no pattern; and what is written about an automaton, by looking
  up its numbers once more, is what its listing, graph and tables are.
-/
import LineScan.Proofs.Nfa.OfPattern
import LineScan.Proofs.Plain.Assembling
import LineScan.Proofs.Plain.Render

namespace LineScan

/-! ## §1. The chain on plain numbers. -/

/-- The automata of a pattern, with plain references. -/
structure PlainStages where
  /-- The number of nodes. -/
  size : Nat
  /-- The nodes. -/
  nodes : Vector (Node Nat) size
  /-- The node in which every word begins. -/
  start : Nat
  /-- The deterministic automaton. -/
  states : PlainDfa
  /-- The one with indistinguishable states merged. -/
  merged : PlainDfa

namespace PlainStages

/-- **Compiles a pattern and checks every access.** -/
def ofPattern? (pattern : String) : Except CompileError PlainStages := do
  let nfa ← nfaOf (← assemble? pattern)
  let states ← orFault (PlainNodes.determinize? nfa.plainNodes nfa.start)
  let merged ← orFault states.minimize?
  return ⟨nfa.size, nfa.plainNodes, nfa.start, states, merged⟩

/-- The listing of the nodes. -/
def listing (s : PlainStages) : String := unlines (s.nodes.toList.map (Node.plainLine s.start))

end PlainStages

/-- The automata that follow from the one of a pattern. -/
def Nfa.plainStages (nfa : Nfa) : PlainStages :=
  ⟨nfa.size, nfa.plainNodes, nfa.start, nfa.determinize.plain, nfa.determinize.minimize.plain⟩

/-- The checks change nothing. -/
theorem PlainStages.ofPattern?_eq (pattern : String) :
    PlainStages.ofPattern? pattern = (Nfa.ofPattern? pattern).map Nfa.plainStages := by
  have hnfa : (assemble? pattern >>= nfaOf) = Nfa.ofPattern? pattern := by
    rw [assemble?_eq, bind_assoc]
    rfl
  have hstages : ∀ nfa : Nfa, (do
      let states ← orFault (PlainNodes.determinize? nfa.plainNodes nfa.start)
      let merged ← orFault states.minimize?
      return ⟨nfa.size, nfa.plainNodes, nfa.start, states, merged⟩) =
        (Except.ok nfa.plainStages : Except CompileError PlainStages) := by
    intro nfa
    rw [Nfa.determinize?_plainNodes, orFault_ok, ok_bind, Dfa.minimize?_plain]
    rfl
  unfold ofPattern?
  rw [← bind_assoc, hnfa]
  simp only [hstages]
  cases Nfa.ofPattern? pattern <;> rfl

/-- A text has an automaton, or is refused for a reason that concerns the
text. -/
theorem Nfa.ofPattern_ok_or_refused (pattern : String) :
    (∃ nfa, Nfa.ofPattern? pattern = .ok nfa) ∨
      ∃ e, Nfa.ofPattern? pattern = .error (.pattern e) := by
  cases h : readRules pattern with
  | ok rules =>
      obtain ⟨nfa, hnfa, _⟩ := Nfa.exists_ofPattern h
      exact .inl ⟨nfa, hnfa⟩
  | error refusal => exact .inr ⟨refusal.error, Nfa.ofPattern?_eq_error h⟩

/-! ## §2. What is written about an automaton. -/

/-- Whatever can be written about an automaton can be written by its plain
numbers. -/
structure PlainDfa.Renders (p : PlainDfa) (d : Dfa) : Prop where
  /-- The graph, under every name. -/
  graph : ∀ name, p.graph? name = .ok (d.graph name)
  /-- The full table, in every language. -/
  fullTable : ∀ options, p.fullTable? options = .ok (d.fullTable options)
  /-- The compressed table, with every threshold. -/
  packedTable : ∀ options, p.packedTable? options = .ok (d.packedTable options)

theorem Dfa.renders_plain (d : Dfa) : d.plain.Renders d where
  graph := d.graph?_plain
  fullTable := d.fullTable?_plain
  packedTable := d.packedTable?_plain

/-! ## §3. No fault. -/

/-- **No text makes compiling misuse a number.**  The chain that checks every
access refuses a text for the reason for which `compile` does, a reason that
concerns the text; or it reaches the automata of `compile`, and the listing,
the graphs and the tables of all of them can be written. -/
theorem compile_never_faults (pattern : String) :
    (∃ e, PlainStages.ofPattern? pattern = .error (.pattern e) ∧
      compile pattern = .error (.pattern e)) ∨
    ∃ nfa s, Nfa.ofPattern? pattern = .ok nfa ∧ PlainStages.ofPattern? pattern = .ok s ∧
      compile pattern = .ok nfa.determinize.minimize ∧
      s.states = nfa.determinize.plain ∧ s.merged = nfa.determinize.minimize.plain ∧
      s.listing = nfa.listing ∧ s.states.Renders nfa.determinize ∧
      s.merged.Renders nfa.determinize.minimize := by
  rcases Nfa.ofPattern_ok_or_refused pattern with ⟨nfa, hnfa⟩ | ⟨e, he⟩
  · have hstages : PlainStages.ofPattern? pattern = .ok nfa.plainStages := by
      rw [PlainStages.ofPattern?_eq, hnfa]
      rfl
    have hcompile : compile pattern = .ok nfa.determinize.minimize := by
      unfold compile
      rw [hnfa]
      rfl
    exact .inr ⟨nfa, nfa.plainStages, hnfa, hstages, hcompile, rfl, rfl, nfa.unlines_plainLine,
      nfa.determinize.renders_plain, nfa.determinize.minimize.renders_plain⟩
  · have hstages : PlainStages.ofPattern? pattern = .error (.pattern e) := by
      rw [PlainStages.ofPattern?_eq, he]
      rfl
    have hcompile : compile pattern = .error (.pattern e) := by
      unfold compile
      rw [he]
      rfl
    exact .inl ⟨e, hstages, hcompile⟩

end LineScan
