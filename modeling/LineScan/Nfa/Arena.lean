/-
  LineScan.Nfa.Arena
  ──────────────────
  **NODES UNDER CONSTRUCTION.**

  An `Arena` holds nodes in numbered slots.  A slot can be released, and the
  slot released last is the first to be handed out again.  Splicing merges
  one node into another and releases its slot; that is how two expressions
  are joined without an epsilon edge between them.

  Slot numbers are plain numbers, so every operation on a slot may be a
  `Fault`: there is no such slot, or it has been released.  `finish` checks
  all references once, closes the gaps, and returns an automaton in which
  references cannot go wrong any more.

  What building needs of an arena is a class of its own, `Store`.
-/
import LineScan.Nfa.Basic

namespace LineScan

/-- Nodes under construction. -/
structure Arena where
  /-- The slots; a released one is empty. -/
  slots : Array (Option (Node Nat))
  /-- The released slots, last released first. -/
  free : List Nat
  /-- How often a released slot has been handed out again. -/
  reused : Nat

namespace Arena

/-- An arena without slots. -/
def empty : Arena := ⟨#[], [], 0⟩

/-- The number of slots that hold a node. -/
def live (a : Arena) : Nat := a.slots.size - a.free.length

/-! ## §1. Slots. -/

/-- The node in a slot. -/
def get (a : Arena) (i : Nat) : Except Fault (Node Nat) :=
  match a.slots[i]? with
  | none => .error (.outOfRange a.slots.size i)
  | some none => .error (.released i)
  | some (some n) => .ok n

/-- Puts a fresh node into the slot released last, or into a new slot. -/
def alloc (a : Arena) : Nat × Arena :=
  match a.free with
  | i :: free =>
      -- the slot released last comes back first
      (i, ⟨a.slots.setIfInBounds i (some (Node.fresh i)), free, a.reused + 1⟩)
  | [] => (a.slots.size, { a with slots := a.slots.push (some (Node.fresh a.slots.size)) })

/-- Empties a slot. -/
def release (a : Arena) (i : Nat) : Arena :=
  { a with slots := a.slots.setIfInBounds i none, free := i :: a.free }

/-- Releases a slot; releasing it again changes nothing. -/
def discard (a : Arena) (i : Nat) : Except Fault Arena :=
  match a.slots[i]? with
  | none => .error (.outOfRange a.slots.size i)
  | some none => .ok a
  | some (some _) => .ok (a.release i)

/-- Changes the node in a slot. -/
def modify (a : Arena) (i : Nat) (f : Node Nat → Node Nat) : Except Fault Arena := do
  let n ← a.get i
  return { a with slots := a.slots.setIfInBounds i (some (f n)) }

/-- **Merges the node in `source` into the one in `target`** and releases
`source`.  Whatever refers to `target` now continues where `source` did. -/
def splice (a : Arena) (target source : Nat) : Except Fault Arena :=
  match a.slots[source]? with
  | none => .error (.outOfRange a.slots.size source)
  | some none => .error (.splicedFromReleased source)
  | some (some n) =>
      -- released first, so that a node is never merged into itself
      (a.release source).modify target fun t => { n with index := t.index }

/-! ## §2. Writing to a node. -/

/-- Sets the first reference. -/
def setNext (a : Arena) (i : Nat) (target : Option Nat) : Except Fault Arena :=
  a.modify i fun n => { n with next := target }

/-- Sets the second reference. -/
def setOther (a : Arena) (i : Nat) (target : Option Nat) : Except Fault Arena :=
  a.modify i fun n => { n with other := target }

/-- Sets the reference of the given place: the first (0) or the second (1).
The slot is looked up before the place. -/
def setReference (a : Arena) (i place : Nat) (target : Option Nat) : Except Fault Arena :=
  match place with
  | 0 => a.setNext i target
  | 1 => a.setOther i target
  | place => do
      let _ ← a.get i
      .error (.outOfRange 2 place)

/-- Sets the edge. -/
def setEdge (a : Arena) (i : Nat) (edge : Edge) : Except Fault Arena :=
  a.modify i fun n => { n with edge }

/-- Sets the anchor. -/
def setAnchor (a : Arena) (i : Nat) (anchor : Anchor) : Except Fault Arena :=
  a.modify i fun n => { n with anchor }

/-! ## §3. Finishing. -/

/-- The slots that hold a node, ascending, with their nodes. -/
def nodes (a : Arena) : List (Nat × Node Nat) :=
  a.slots.toList.zipIdx.filterMap fun (slot, i) => slot.map (i, ·)

/-- The position of a slot among those that hold a node. -/
def rank? (a : Arena) (i : Nat) : Except Fault (Fin a.nodes.length) :=
  match a.nodes.findFinIdx? fun entry => entry.1 == i with
  | some k => .ok k
  | none =>
      if i < a.slots.size then .error (.danglingReference i)
      else .error (.outOfRange a.slots.size i)

/-- **Closes the gaps**: the nodes move together in the order of their slots,
and all references are renumbered.  A reference to a slot without a node is a
fault. -/
def finish (a : Arena) (start : Nat) : Except Fault Nfa := do
  let entries : Vector (Nat × Node Nat) a.nodes.length := ⟨a.nodes.toArray, List.size_toArray⟩
  let nodes ← entries.mapM fun entry => entry.2.renumber a.rank?
  let start ← a.rank? start
  return { size := a.nodes.length, nodes, start }

end Arena

/-! ## §4. Places to build in. -/

/-- **What building needs of the place where the nodes go.**  An arena is such
a place, and so is an arena that writes down what is done to it. -/
class Store (σ : Type) where
  /-- Asks for a slot. -/
  alloc : σ → Except Fault (Nat × σ)
  /-- Merges the node in the second slot into the one in the first. -/
  splice : σ → Nat → Nat → Except Fault σ
  /-- Writes the first reference of a node. -/
  setNext : σ → Nat → Option Nat → Except Fault σ
  /-- Writes the second reference of a node. -/
  setOther : σ → Nat → Option Nat → Except Fault σ
  /-- Writes the edge of a node. -/
  setEdge : σ → Nat → Edge → Except Fault σ
  /-- Writes the anchor of a node. -/
  setAnchor : σ → Nat → Anchor → Except Fault σ

instance : Store Arena where
  alloc a := .ok a.alloc
  splice := Arena.splice
  setNext := Arena.setNext
  setOther := Arena.setOther
  setEdge := Arena.setEdge
  setAnchor := Arena.setAnchor

end LineScan
