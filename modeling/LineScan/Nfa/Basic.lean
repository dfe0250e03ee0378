/-
  LineScan.Nfa.Basic
  ──────────────────
  **FINISHED NON-DETERMINISTIC AUTOMATA.**

  An `Nfa` is a vector of nodes whose references are positions in that
  vector, with a start.  It is run on sets of nodes:

      close s    everything that `s` reaches without consuming a byte
      step s b   what `s` reaches by consuming `b`; nothing if that is empty
      accepts w  close, then step and close for every byte, then look for a
                 node that accepts

  `close` is a search: a node that is not yet in the result is put there, and
  its epsilon targets join the nodes to be looked at.  It ends because the
  nodes outside the result become fewer.
-/
import LineScan.Nfa.Node

namespace LineScan

/-- A non-deterministic automaton. -/
structure Nfa where
  /-- The number of nodes. -/
  size : Nat
  /-- The nodes; references are positions in this vector. -/
  nodes : Vector (Node (Fin size)) size
  /-- Where every run begins. -/
  start : Fin size

namespace Nfa

/-- A set of nodes. -/
abbrev NodeSet (nfa : Nfa) := BitSet nfa.size

variable (nfa : Nfa)

/-- The node with a number. -/
def node (i : Fin nfa.size) : Node (Fin nfa.size) := nfa.nodes[i]

/-- The node at any position, or a fault. -/
def node? (i : Nat) : Except Fault (Node (Fin nfa.size)) :=
  if h : i < nfa.size then .ok (nfa.node ⟨i, h⟩) else .error (.outOfRange nfa.size i)

/-- Whether there are no nodes at all. -/
def isEmpty : Bool := nfa.size == 0

/-- The line ends that some rule of the automaton is tied to. -/
def anchor : Anchor :=
  (nfa.nodes.toList.filter (·.isTerminal)).foldl (fun a n => a.union n.anchor) Anchor.none

/-! ## §1. Moves on sets of nodes. -/

/-- Adds to `found` everything reachable from `pending` over epsilon edges
without passing through `found`. -/
def closeFrom (found : nfa.NodeSet) (pending : List (Fin nfa.size)) : nfa.NodeSet :=
  match pending with
  | [] => found
  | i :: rest =>
      if _h : found.contains i = true then closeFrom found rest
      else closeFrom (found.insert i) ((nfa.node i).epsilonTargets ++ rest)
-- a node that is added leaves two others to be followed at most
termination_by 3 * found.absent.length + pending.length
decreasing_by
  · exact Nat.add_lt_add_left (Nat.lt_succ_self _) _
  · have hless := BitSet.length_absent_insert_lt (Bool.eq_false_iff.2 _h)
    have htwo := (nfa.node i).length_epsilonTargets_le
    simp only [List.length_append, List.length_cons]
    omega

/-- **Everything that a set reaches without consuming a byte.** -/
def close (s : nfa.NodeSet) : nfa.NodeSet := nfa.closeFrom (BitSet.empty _) s.members

/-- **What a set reaches by consuming one byte**; nothing when no node of the
set lets the byte pass. -/
def step (s : nfa.NodeSet) (b : UInt8) : Option nfa.NodeSet :=
  match s.members.filterMap fun i => (nfa.node i).byteTarget? b with
  | [] => none
  | targets => some (BitSet.ofList targets)

/-- A node is reached on a byte exactly when some node of the set leads
there. -/
theorem contains_of_step {s t : nfa.NodeSet} {b : UInt8} (h : nfa.step s b = some t)
    (j : Fin nfa.size) :
    t.contains j = true ↔
      ∃ i : Fin nfa.size, s.contains i = true ∧ (nfa.node i).byteTarget? b = some j := by
  have ht : t = BitSet.ofList (s.members.filterMap fun i => (nfa.node i).byteTarget? b) := by
    unfold step at h
    split at h
    · cases h
    · cases h; rfl
  rw [ht, BitSet.contains_ofList, List.any_eq_true]
  constructor
  · rintro ⟨j', hj', he⟩
    obtain ⟨i, hi, hij⟩ := List.mem_filterMap.1 hj'
    have : j = j' := Fin.ext (of_decide_eq_true he)
    exact ⟨i, BitSet.mem_members.1 hi, this ▸ hij⟩
  · rintro ⟨i, hi, hij⟩
    exact ⟨j, List.mem_filterMap.2 ⟨i, BitSet.mem_members.2 hi, hij⟩, decide_eq_true rfl⟩

/-- Whether some node of the set accepts. -/
def isAccepting (s : nfa.NodeSet) : Bool := s.members.any fun i => (nfa.node i).isTerminal

theorem isAccepting_iff {s : nfa.NodeSet} :
    nfa.isAccepting s = true ↔
      ∃ i : Fin nfa.size, s.contains i = true ∧ (nfa.node i).isTerminal = true := by
  rw [isAccepting, List.any_eq_true]
  exact ⟨fun ⟨i, hi, ht⟩ => ⟨i, BitSet.mem_members.1 hi, ht⟩,
    fun ⟨i, hi, ht⟩ => ⟨i, BitSet.mem_members.2 hi, ht⟩⟩

/-! ## §2. Runs. -/

/-- The nodes that a run may be at before it consumes anything. -/
def initial : nfa.NodeSet := nfa.close (BitSet.ofList [nfa.start])

/-- The nodes that a run may be at after a word, when it begins in `s`;
nothing when every run dies or the word leaves the alphabet. -/
def runFrom (s : nfa.NodeSet) : Word → Option nfa.NodeSet
  | [] => some s
  | b :: rest =>
      if b.toNat < alphabetSize then
        match nfa.step s b with
        | none => none
        | some moved => runFrom (nfa.close moved) rest
      else none

/-- **Whether the automaton accepts a word.** -/
def accepts (w : Word) : Bool :=
  match nfa.runFrom nfa.initial w with
  | none => false
  | some s => nfa.isAccepting s

end Nfa

end LineScan
