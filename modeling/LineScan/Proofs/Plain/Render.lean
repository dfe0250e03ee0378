/-
  LineScan.Proofs.Plain.Render
  ────────────────────────────
  **WRITING GRAPHS AND TABLES BY THEIR NUMBERS.**

  A row of the transition matrix starts as zeros, and every symbol of every
  group of transitions overwrites a cell.  The graph looks up the state that
  each group leads to, and the compressed table the cell of each symbol.
-/
import LineScan.Proofs.Plain.Quotient
import LineScan.Proofs.Render.PackedRows
import LineScan.Render.Graph

namespace LineScan

/-! ## §1. The transition matrix. -/

namespace PlainTransition

/-- Writes the cells of a group of transitions. -/
def write? (row : List Nat) (t : PlainTransition) : Except Fault (List Nat) :=
  overwriteAll? row (t.symbols.members.map Fin.val) (t.target + 1)

/-- The cells of all symbols, ascending. -/
def row? (ts : List PlainTransition) : Except Fault (List Nat) :=
  ts.foldlM write? (List.replicate alphabetSize 0)

end PlainTransition

/-- The rows of all states, after the one of the dead state. -/
def PlainDfa.matrix? (d : PlainDfa) : Except Fault (List (List Nat)) := do
  let rows ← d.states.mapM fun s => PlainTransition.row? s.transitions
  return List.replicate alphabetSize 0 :: rows

theorem foldlM_write? {size : Nat} (ts : Transitions size) (f : Symbol → Nat) :
    (ts.map Transition.plain).foldlM PlainTransition.write? (List.ofFn f) =
      .ok (List.ofFn fun a =>
        ts.foldl (fun k t => if t.symbols.contains a then t.target.val + 1 else k) (f a)) := by
  induction ts generalizing f with
  | nil => rfl
  | cons t rest ih =>
      have hwrite : PlainTransition.write? (List.ofFn f) t.plain =
          .ok (List.ofFn fun a => if a ∈ t.symbols.members then t.target.val + 1 else f a) :=
        overwriteAll?_ofFn f t.symbols.members (t.target.val + 1)
      rw [List.map_cons, List.foldlM_cons, hwrite, ok_bind, ih]
      simp only [BitSet.mem_members, List.foldl_cons]

theorem replicate_alphabetSize (k : Nat) :
    List.replicate alphabetSize k = alphabet.map fun _ => k := by
  rw [← List.ofFn_const, List.ofFn_eq_map]
  rfl

theorem Transitions.row?_map_plain {size : Nat} (ts : Transitions size) :
    PlainTransition.row? (ts.map Transition.plain) = .ok ts.row := by
  unfold PlainTransition.row?
  rw [← List.ofFn_const, foldlM_write?, List.ofFn_eq_map]
  rfl

theorem Dfa.matrix?_plain (d : Dfa) : d.plain.matrix? = .ok d.matrix := by
  have hrows : (d.plain.states.mapM fun s => PlainTransition.row? s.transitions) =
      .ok (d.states.toList.map fun s => s.transitions.row) :=
    mapM_map_eq_ok fun s _ => Transitions.row?_map_plain s.transitions
  unfold PlainDfa.matrix?
  rw [hrows, ok_bind, replicate_alphabetSize]
  rfl

/-! ## §2. The graph. -/

namespace PlainDfa

variable (d : PlainDfa)

/-- The line of a group of transitions that leaves state `s`. -/
def edgeLine? (s : PlainState d.capacity) (t : PlainTransition) : Except Fault String := do
  let target ← lookUp? d.states t.target
  return stateName s.id ++ " -> " ++ stateName target.id ++ " [ label = \"'" ++
    String.join (t.symbols.members.map Symbol.labelText) ++ "'\" ]"

/-- The lines of all edges, in the order of the states they leave. -/
def edgeLines? : Except Fault (List String) := do
  let lines ← d.states.mapM fun s => s.transitions.mapM (d.edgeLine? s)
  return lines.flatten

/-- The graph of an automaton, under a name. -/
def graph? (name : String) : Except Fault String := do
  let lines ← d.edgeLines?
  return unlines (["digraph " ++ name ++ " \x7b"] ++ lines ++ ["\x7d"])

end PlainDfa

namespace Dfa

variable (d : Dfa)

theorem edgeLine?_plain (s : State d.capacity d.size) (t : Transition d.size) :
    d.plain.edgeLine? s.plain t.plain = .ok (d.edgeLine s t) := by
  have htarget : lookUp? d.plain.states t.plain.target = .ok (d.state t.target).plain :=
    d.lookUp?_states_plain t.target
  unfold PlainDfa.edgeLine?
  rw [htarget, ok_bind]
  rfl

theorem edgeLines?_plain : d.plain.edgeLines? = .ok d.edgeLines := by
  have hlines : (d.plain.states.mapM fun s => s.transitions.mapM (d.plain.edgeLine? s)) =
      .ok (d.states.toList.map fun s => s.transitions.map (d.edgeLine s)) :=
    mapM_map_eq_ok fun s _ => mapM_map_eq_ok fun t _ => d.edgeLine?_plain s t
  unfold PlainDfa.edgeLines?
  rw [hlines, ok_bind]
  unfold edgeLines
  rw [List.flatMap_def]
  rfl

theorem graph?_plain (name : String) : d.plain.graph? name = .ok (d.graph name) := by
  unfold PlainDfa.graph?
  rw [edgeLines?_plain]
  rfl

end Dfa

/-! ## §3. Tables. -/

/-- The cells other than 0, with their symbols, each looked up. -/
def PackedRow.pairsOf? (cells : List Nat) : Except Fault (List (Symbol × Nat)) := do
  let pairs ← alphabet.mapM fun (a : Symbol) => do
    let cell ← lookUp? cells a
    return (a, cell)
  return pairs.filter fun pair => pair.2 != 0

/-- Stores a row. -/
def PackedRow.ofCells? (threshold : Nat) (cells : List Nat) : Except Fault PackedRow := do
  match ← PackedRow.pairsOf? cells with
  | [] => return .empty
  | pairs => return if pairs.length > threshold then .dense cells else .sparse pairs

namespace PlainDfa

variable (d : PlainDfa)

/-- The full table of an automaton. -/
def fullTable? (options : FullTableOptions) : Except Fault String := do
  return FullTable.render options (← d.matrix?)

/-- The compressed table of an automaton. -/
def packedTable? (options : PackedTableOptions) : Except Fault String := do
  let rows ← (← d.matrix?).mapM (PackedRow.ofCells? options.threshold)
  return PackedTable.render options rows

end PlainDfa

theorem PackedRow.ofCells?_map (threshold : Nat) (f : Symbol → Nat) :
    PackedRow.ofCells? threshold (alphabet.map f) =
      .ok (PackedRow.ofCells threshold (alphabet.map f)) := by
  have hlookUp : ∀ a : Symbol, lookUp? (alphabet.map f) a = .ok (f a) := by
    intro a
    have hcells : alphabet.map f = List.ofFn f := List.ofFn_eq_map.symm
    rw [hcells, lookUp?_ofFn]
  have hpairs : PackedRow.pairsOf? (alphabet.map f) = .ok (PackedRow.pairsOf (alphabet.map f)) := by
    have hloop : (alphabet.mapM fun (a : Symbol) => do
        let cell ← lookUp? (alphabet.map f) a
        return (a, cell)) = .ok (alphabet.map fun a => (a, f a)) := by
      apply mapM_eq_ok
      intro a _
      rw [hlookUp, ok_bind]
      rfl
    unfold PackedRow.pairsOf?
    rw [hloop, ok_bind, PackedRow.pairsOf_map, List.filter_map]
    rfl
  unfold PackedRow.ofCells? PackedRow.ofCells
  rw [hpairs, ok_bind]
  cases PackedRow.pairsOf (alphabet.map f) <;> rfl

namespace Dfa

variable (d : Dfa)

theorem fullTable?_plain (options : FullTableOptions) :
    d.plain.fullTable? options = .ok (d.fullTable options) := by
  unfold PlainDfa.fullTable?
  rw [matrix?_plain]
  rfl

theorem packedTable?_plain (options : PackedTableOptions) :
    d.plain.packedTable? options = .ok (d.packedTable options) := by
  have hrows : d.matrix.mapM (PackedRow.ofCells? options.threshold) =
      .ok (d.packedRows options.threshold) := by
    apply mapM_eq_ok
    intro cells hcells
    have hmap : ∃ f : Symbol → Nat, cells = alphabet.map f := by
      rcases List.mem_cons.1 hcells with hdead | hrow
      · exact ⟨_, hdead⟩
      · obtain ⟨s, _, hs⟩ := List.mem_map.1 hrow
        exact ⟨_, hs.symm⟩
    obtain ⟨f, hf⟩ := hmap
    rw [hf, PackedRow.ofCells?_map]
  unfold PlainDfa.packedTable?
  rw [matrix?_plain, ok_bind, hrows]
  rfl

end Dfa

end LineScan
