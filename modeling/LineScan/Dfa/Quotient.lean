/-
  LineScan.Dfa.Quotient
  ─────────────────────
  **MERGING THE STATES OF A BLOCK.**

  The quotient of an automaton by a partition has one state for each block,
  ordered by the smallest member, so that the start stays in front.  The
  first member of a block lends it its label and its transitions; their
  targets are replaced by the blocks they lie in, and groups that now lead to
  the same block become one.
-/
import LineScan.Dfa.Partition

namespace LineScan

namespace Partition

variable {size : Nat}

/-- The numbers of the blocks, by smallest member. -/
def order (P : Partition size) : List (Fin P.count) :=
  (List.finRange P.count).mergeSort fun p q => decide ((P.block p).least ≤ (P.block q).least)

@[simp] theorem length_order (P : Partition size) : P.order.length = P.count := by
  simp [order]

theorem mem_order (P : Partition size) (p : Fin P.count) : p ∈ P.order := by
  simp [order]

/-- The position of each block in a list of all blocks. -/
def positions (P : Partition size) (order : List (Fin P.count))
    (hlen : order.length = P.count) (hmem : ∀ p, p ∈ order) : Vector (Fin P.count) P.count :=
  Vector.ofFn fun p =>
    ⟨order.idxOf p, Nat.lt_of_lt_of_eq (List.idxOf_lt_length_of_mem (hmem p)) hlen⟩

end Partition

namespace Dfa

variable (d : Dfa)

/-- The transitions of a state with their targets replaced; groups that then
share a target become one. -/
def redirect {size size' : Nat} (f : Fin size → Fin size') (ts : Transitions size) :
    Transitions size' :=
  ts.foldl (fun merged t => merged.record (f t.target) t.symbols) []

/-- The state that a block becomes: its first member, at position `i`, with
targets replaced by the positions of their blocks. -/
def mergedState (P : Partition d.size) (positions : Vector (Fin P.count) P.count)
    (p i : Fin P.count) : State d.capacity P.count :=
  let representative := d.state (P.block p).head
  { label := representative.label
    id := i
    index := i
    block := p
    accepting := representative.accepting
    transitions :=
      redirect (fun target => positions.get (P.blockOf target)) representative.transitions }

/-- The quotient whose states are the blocks in the given order. -/
def quotientBy (P : Partition d.size) (order : List (Fin P.count))
    (hlen : order.length = P.count) (hmem : ∀ p, p ∈ order) : Dfa :=
  let positions := P.positions order hlen hmem
  { capacity := d.capacity
    size := P.count
    states := Vector.ofFn fun i => d.mergedState P positions (order.get (i.cast hlen.symm)) i
    size_pos := Fin.pos (P.blockOf d.start) }

theorem state_quotientBy (P : Partition d.size) (order : List (Fin P.count))
    (hlen : order.length = P.count) (hmem : ∀ p, p ∈ order) (i : Fin P.count) :
    (d.quotientBy P order hlen hmem).state i =
      d.mergedState P (P.positions order hlen hmem) (order.get (i.cast hlen.symm)) i := by
  exact Vector.getElem_ofFn i.isLt

/-- **The automaton whose states are the blocks of a partition.** -/
def quotient (P : Partition d.size) : Dfa :=
  d.quotientBy P P.order P.length_order P.mem_order

/-- **The automaton with indistinguishable states merged.** -/
def minimize : Dfa := d.quotient d.refinement.1

/-- Minimizes any number of times. -/
def minimizeTimes : Dfa → Nat → Dfa
  | d, 0 => d
  | d, times + 1 => minimizeTimes d.minimize times

end Dfa

end LineScan
