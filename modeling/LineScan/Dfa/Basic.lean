/-
  LineScan.Dfa.Basic
  ──────────────────
  **DETERMINISTIC AUTOMATA.**

  A `Dfa` is a vector of states; state 0 is the start.  The transitions of a
  state are grouped: one group for each target, with all the symbols that
  lead there.  A symbol in no group has no transition, and a run on it ends.

  A state keeps the set of nodes it stands for (`label`), the number its name
  is read from (`id`), its position (`index`) and, in an automaton that was
  made by merging states, the number of the block it was made from.
-/
import LineScan.Alphabet
import LineScan.StateName

namespace LineScan

/-! ## §1. Transitions. -/

/-- All symbols of one state that lead to the same target. -/
structure Transition (size : Nat) where
  /-- Where the symbols lead. -/
  target : Fin size
  /-- The symbols. -/
  symbols : SymbolSet
deriving DecidableEq

/-- The transitions of one state, grouped by target in the order in which
the targets first occurred. -/
abbrev Transitions (size : Nat) := List (Transition size)

namespace Transitions

variable {size : Nat}

/-- Adds symbols that lead to `target`: to the group of that target if there
is one, else as a new last group. -/
def record (target : Fin size) (symbols : SymbolSet) : Transitions size → Transitions size
  | [] => [⟨target, symbols⟩]
  | t :: rest =>
      if t.target = target then ⟨t.target, t.symbols.union symbols⟩ :: rest
      else t :: record target symbols rest

/-- Where a byte leads: the target of the first group that holds it. -/
def target? (ts : Transitions size) (b : UInt8) : Option (Fin size) :=
  (ts.find? fun t => t.symbols.contains b.toNat).map (·.target)

/-- The number of symbols in all groups together. -/
def count (ts : Transitions size) : Nat := ts.foldr (fun t n => t.symbols.count + n) 0

end Transitions

/-! ## §2. States. -/

/-- A state of an automaton with `size` states, standing for a set of nodes
below `capacity`. -/
structure State (capacity size : Nat) where
  /-- The nodes that the state stands for. -/
  label : BitSet capacity
  /-- The number that the state's name is read from. -/
  id : Nat
  /-- The state's position. -/
  index : Nat
  /-- The number of the block of states that the state was made from. -/
  block : Nat
  /-- Whether a run may stop here. -/
  accepting : Bool
  /-- Where the symbols lead. -/
  transitions : Transitions size
deriving DecidableEq

namespace State

variable {capacity size : Nat}

/-- The name shown for a state. -/
def name (s : State capacity size) : String := stateName s.id

/-- Where a byte leads from a state. -/
def target? (s : State capacity size) (b : UInt8) : Option (Fin size) := s.transitions.target? b

/-- Whether no symbol leads on. -/
def isDeadEnd (s : State capacity size) : Bool := s.transitions.isEmpty

end State

/-! ## §3. Automata. -/

/-- A deterministic automaton. -/
structure Dfa where
  /-- The capacity of the labels. -/
  capacity : Nat
  /-- The number of states. -/
  size : Nat
  /-- The states; targets are positions in this vector. -/
  states : Vector (State capacity size) size
  /-- There is a start. -/
  size_pos : 0 < size

namespace Dfa

variable (d : Dfa)

/-- Where every run begins. -/
def start : Fin d.size := ⟨0, d.size_pos⟩

/-- The state with a number. -/
def state (s : Fin d.size) : State d.capacity d.size := d.states[s]

theorem toList_states : d.states.toList = (List.finRange d.size).map d.state := by
  apply List.ext_getElem (by simp)
  intro k hk hk'
  rw [Vector.getElem_toList, List.getElem_map, List.getElem_finRange]
  rfl

/-- The state at any position, or a fault. -/
def state? (i : Nat) : Except Fault (State d.capacity d.size) :=
  if h : i < d.size then .ok (d.state ⟨i, h⟩) else .error (.outOfRange d.size i)

/-- Where a byte leads from a state. -/
def next (s : Fin d.size) (b : UInt8) : Option (Fin d.size) := (d.state s).target? b

/-- Where a byte leads from any position, or a fault. -/
def next? (i : Nat) (b : UInt8) : Except Fault (Option (Fin d.size)) :=
  (d.state? i).map (·.target? b)

/-- Where a word leads from a state, if every byte leads on. -/
def runFrom (s : Fin d.size) : Word → Option (Fin d.size)
  | [] => some s
  | b :: rest =>
      match d.next s b with
      | none => none
      | some t => runFrom t rest

/-- **Whether the automaton accepts a word.** -/
def accepts (w : Word) : Bool :=
  match d.runFrom d.start w with
  | none => false
  | some s => (d.state s).accepting

/-- The states that a run passes through from a state on, the first one
included, up to the first byte that does not lead on. -/
def visited (s : Fin d.size) : Word → List (Fin d.size)
  | [] => [s]
  | b :: rest =>
      match d.next s b with
      | none => [s]
      | some t => s :: visited t rest

/-- The positions of the accepting states, ascending. -/
def acceptingStates : List (Fin d.size) :=
  (List.finRange d.size).filter fun s => (d.state s).accepting

end Dfa

end LineScan
