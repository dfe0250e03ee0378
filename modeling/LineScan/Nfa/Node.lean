/-
  LineScan.Nfa.Node
  ─────────────────
  **ONE NODE OF A NON-DETERMINISTIC AUTOMATON.**

  A node has up to two references to other nodes and one edge.  A node
  without a first reference accepts.  On an epsilon edge a run may follow
  both references; on any other edge it follows the first one, and only on a
  byte that the edge admits.

  The type of references is a parameter: while an automaton is being built
  they are slot numbers (`Nat`), and in a finished one of `n` nodes they are
  numbers below `n` (`Fin n`), so that following one cannot fail.
-/
import LineScan.Anchor
import LineScan.CharClass

namespace LineScan

/-- A node whose references have type `Ref`. -/
structure Node (Ref : Type) where
  /-- The first reference; a node without it accepts. -/
  next : Option Ref
  /-- The second reference, followed on epsilon edges only. -/
  other : Option Ref
  /-- What a run must consume to leave the node. -/
  edge : Edge
  /-- The line ends that the rule accepted here is tied to. -/
  anchor : Anchor
  /-- The node's own number. -/
  index : Ref
deriving DecidableEq

namespace Node

variable {Ref Ref' : Type}

/-- A node without references and with an epsilon edge. -/
def fresh (index : Ref) : Node Ref := ⟨none, none, .epsilon, Anchor.none, index⟩

/-- Whether a run may stop here. -/
def isTerminal (n : Node Ref) : Bool := n.next.isNone

/-- Where a run may go without consuming anything. -/
def epsilonTargets (n : Node Ref) : List Ref :=
  match n.edge with
  | .epsilon => n.next.toList ++ n.other.toList
  | _ => []

/-- A node has two references at most. -/
theorem length_epsilonTargets_le (n : Node Ref) : n.epsilonTargets.length ≤ 2 := by
  unfold epsilonTargets
  split
  · cases n.next <;> cases n.other <;> simp
  · exact Nat.zero_le 2

/-- Where a run goes on this byte. -/
def byteTarget? (n : Node Ref) (b : UInt8) : Option Ref :=
  if n.edge.admits b then n.next else none

/-- The node with its references replaced, its own number first, then the
first and the second reference.  The first failure wins. -/
def renumber (f : Ref → Except Fault Ref') (n : Node Ref) : Except Fault (Node Ref') := do
  let index ← f n.index
  let next ← renumberRef n.next
  let other ← renumberRef n.other
  return ⟨next, other, n.edge, n.anchor, index⟩
where
  /-- Replaces a reference that may be absent. -/
  renumberRef : Option Ref → Except Fault (Option Ref')
    | none => .ok none
    | some r => (f r).map some

end Node

end LineScan
