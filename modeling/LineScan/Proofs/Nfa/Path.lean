/-
  LineScan.Proofs.Nfa.Path
  ────────────────────────
  **RUNS AS PATHS.**

  A `Graph` gives the node of every reference that has one.  Both an arena
  and a finished automaton are read as graphs, so that what is said of runs
  while nodes are being built can be carried over to the finished automaton.

  `Path G i w j` is a run from `i` to `j` that consumes `w`:

      nil      a run that stays
      epsilon  a move to either reference of an epsilon node
      byte     a move to the first reference, on a symbol the edge admits

  A `Walk` is a run whose bytes need not be symbols: a complemented class also
  admits bytes outside the alphabet.  The paths are the walks over symbols
  (`path_iff_walk`).

  Runs cannot leave a set of nodes that is closed under references
  (`Walk.mem_of_closed`), and do not notice what lies outside it
  (`Path.congr`).
-/
import LineScan.Nfa.Basic
import Mathlib.Data.Set.Basic

namespace LineScan

/-! ## §1. Graphs. -/

/-- The node of each reference that has one. -/
abbrev Graph (Ref : Type) := Ref → Option (Node Ref)

namespace Node

variable {Ref : Type} {n : Node Ref} {i : Ref} {b : UInt8}

/-- All references of a node. -/
def refs (n : Node Ref) : List Ref := n.next.toList ++ n.other.toList

theorem mem_refs : i ∈ n.refs ↔ n.next = some i ∨ n.other = some i := by
  simp [refs]

theorem mem_epsilonTargets :
    i ∈ n.epsilonTargets ↔ n.edge = .epsilon ∧ i ∈ n.refs := by
  unfold epsilonTargets
  cases n.edge <;> simp [refs]

theorem byteTarget?_eq_some :
    n.byteTarget? b = some i ↔ n.edge.admits b = true ∧ n.next = some i := by
  simp [byteTarget?]

theorem mem_refs_of_byteTarget (h : n.byteTarget? b = some i) : i ∈ n.refs := by
  rw [byteTarget?_eq_some] at h
  exact mem_refs.2 (.inl h.2)

end Node

/-- What a node of a graph does: what it consumes and where it leads. -/
def Graph.At {Ref : Type} (G : Graph Ref) (i : Ref) (edge : Edge) (next other : Option Ref) :
    Prop :=
  ∃ n, G i = some n ∧ n.edge = edge ∧ n.next = next ∧ n.other = other

theorem Graph.At.congr {Ref : Type} {G G' : Graph Ref} {i : Ref} {edge : Edge}
    {next other : Option Ref} (h : G.At i edge next other) (hG : G' i = G i) :
    G'.At i edge next other := by
  obtain ⟨n, hn, h⟩ := h
  exact ⟨n, hG.trans hn, h⟩

/-- Every reference of a node of the set leads into the set. -/
def Graph.Closed {Ref : Type} (G : Graph Ref) (S : Set Ref) : Prop :=
  ∀ i ∈ S, ∀ n, G i = some n → ∀ j ∈ n.refs, j ∈ S

/-! ## §2. Paths. -/

/-- **A run of a graph from one node to another**, with the word it
consumes. -/
inductive Path {Ref : Type} (G : Graph Ref) : Ref → Word → Ref → Prop where
  /-- A run that stays where it is. -/
  | nil (i : Ref) : Path G i [] i
  /-- A first move that consumes nothing. -/
  | epsilon {i j k : Ref} {n : Node Ref} {w : Word} :
      G i = some n → j ∈ n.epsilonTargets → Path G j w k → Path G i w k
  /-- A first move that consumes a symbol. -/
  | byte {i j k : Ref} {n : Node Ref} {b : UInt8} {w : Word} :
      G i = some n → b.toNat < alphabetSize → n.byteTarget? b = some j →
        Path G j w k → Path G i (b :: w) k

namespace Path

variable {Ref : Type} {G G' : Graph Ref} {i j k : Ref} {u v w : Word} {b : UInt8}

theorem append (h : Path G i u j) (h' : Path G j v k) : Path G i (u ++ v) k := by
  induction h with
  | nil => exact h'
  | epsilon hn hj _ ih => exact .epsilon hn hj (ih h')
  | byte hn hb hj _ ih => exact .byte hn hb hj (ih h')

/-- A run that consumes a symbol first goes to the node that lets it pass. -/
theorem cons_iff :
    Path G i (b :: w) k ↔
      ∃ j n l, Path G i [] j ∧ G j = some n ∧ b.toNat < alphabetSize ∧
        n.byteTarget? b = some l ∧ Path G l w k := by
  constructor
  · intro h
    generalize hv : b :: w = v at h
    induction h with
    | nil => cases hv
    | epsilon hn hj _ ih =>
        obtain ⟨j, m, l, hp, hm⟩ := ih hv
        exact ⟨j, m, l, .epsilon hn hj hp, hm⟩
    | byte hn hb hj hp _ =>
        cases hv
        exact ⟨_, _, _, .nil _, hn, hb, hj, hp⟩
  · rintro ⟨j, n, l, hp, hn, hb, hl, hp'⟩
    exact hp.append (.byte hn hb hl hp')

/-- Every byte that a run consumes is a symbol. -/
theorem toNat_lt (h : Path G i w k) : ∀ b ∈ w, b.toNat < alphabetSize := by
  induction h with
  | nil => simp
  | epsilon _ _ _ ih => exact ih
  | byte _ hb _ _ ih => simpa using ⟨hb, ih⟩

/-- A run from a node without references stays. -/
theorem eq_of_stuck {e : Edge} (hi : G.At i e none none) (h : Path G i w k) :
    i = k ∧ w = [] := by
  obtain ⟨n, hn, _, hnext, hother⟩ := hi
  have hnone : ∀ j, j ∉ n.refs := by
    intro j hj
    rw [Node.mem_refs, hnext, hother] at hj
    rcases hj with hj | hj <;> cases hj
  cases h with
  | nil => exact ⟨rfl, rfl⟩
  | epsilon hm hj _ =>
      rw [hn] at hm
      cases hm
      exact absurd (Node.mem_epsilonTargets.1 hj).2 (hnone _)
  | byte hm _ hj _ =>
      rw [hn] at hm
      cases hm
      exact absurd (Node.mem_refs_of_byteTarget hj) (hnone _)

end Path

/-! ## §3. Walks. -/

/-- **A run of a graph over any bytes.** -/
inductive Walk {Ref : Type} (G : Graph Ref) : Ref → Word → Ref → Prop where
  /-- A walk that stays where it is. -/
  | nil (i : Ref) : Walk G i [] i
  /-- A first move that consumes nothing. -/
  | epsilon {i j k : Ref} {n : Node Ref} {w : Word} :
      G i = some n → j ∈ n.epsilonTargets → Walk G j w k → Walk G i w k
  /-- A first move that consumes a byte. -/
  | byte {i j k : Ref} {n : Node Ref} {b : UInt8} {w : Word} :
      G i = some n → n.byteTarget? b = some j → Walk G j w k → Walk G i (b :: w) k

/-- **The paths are the walks over symbols.** -/
theorem path_iff_walk {Ref : Type} {G : Graph Ref} {i k : Ref} {w : Word} :
    Path G i w k ↔ (∀ b ∈ w, b.toNat < alphabetSize) ∧ Walk G i w k := by
  constructor
  · intro h
    refine ⟨h.toNat_lt, ?_⟩
    induction h with
    | nil => exact .nil _
    | epsilon hn hj _ ih => exact .epsilon hn hj ih
    | byte hn _ hj _ ih => exact .byte hn hj ih
  · rintro ⟨hw, h⟩
    induction h with
    | nil => exact .nil _
    | epsilon hn hj _ ih => exact .epsilon hn hj (ih hw)
    | byte hn hj _ ih =>
        have hrest := ih fun b hb => hw b (List.mem_cons_of_mem _ hb)
        exact .byte hn (hw _ List.mem_cons_self) hj hrest

/-! ## §4. Closed sets of nodes. -/

section

variable {Ref : Type} {G G' : Graph Ref} {S : Set Ref} {i k : Ref} {w : Word}

theorem Walk.mem_of_closed (h : Walk G i w k) (hS : G.Closed S) (hi : i ∈ S) : k ∈ S := by
  induction h with
  | nil => exact hi
  | epsilon hn hj _ ih => exact ih (hS _ hi _ hn _ (Node.mem_epsilonTargets.1 hj).2)
  | byte hn hj _ ih => exact ih (hS _ hi _ hn _ (Node.mem_refs_of_byteTarget hj))

namespace Path

theorem mem_of_closed (h : Path G i w k) (hS : G.Closed S) (hi : i ∈ S) : k ∈ S :=
  (path_iff_walk.1 h).2.mem_of_closed hS hi

/-- A run inside a closed set only depends on the nodes of the set. -/
theorem congr (hS : G.Closed S) (hG : ∀ i ∈ S, G' i = G i) (hi : i ∈ S)
    (h : Path G i w k) : Path G' i w k := by
  induction h with
  | nil => exact .nil _
  | epsilon hn hj _ ih =>
      have hmem := hS _ hi _ hn _ (Node.mem_epsilonTargets.1 hj).2
      exact .epsilon ((hG _ hi).trans hn) hj (ih hmem)
  | byte hn hb hj _ ih =>
      have hmem := hS _ hi _ hn _ (Node.mem_refs_of_byteTarget hj)
      exact .byte ((hG _ hi).trans hn) hb hj (ih hmem)

theorem closed_congr (hS : G.Closed S) (hG : ∀ i ∈ S, G' i = G i) : G'.Closed S := by
  intro i hi n hn
  rw [hG i hi] at hn
  exact hS i hi n hn

theorem congr_iff (hS : G.Closed S) (hG : ∀ i ∈ S, G' i = G i) (hi : i ∈ S) :
    Path G' i w k ↔ Path G i w k := by
  constructor
  · exact congr (closed_congr hS hG) (fun j hj => (hG j hj).symm) hi
  · exact congr hS hG hi

end Path

end

end LineScan
