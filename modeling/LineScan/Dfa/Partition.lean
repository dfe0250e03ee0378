/-
  LineScan.Dfa.Partition
  ──────────────────────
  **WHICH STATES MAY BE MERGED.**

  A `Partition` sorts the states of an automaton into blocks.  It starts with
  the accepting states in one block and the others in a second one, and is
  refined until no block holds two states that a symbol tells apart.

  One refinement step compares a block with its first member: the members
  that a symbol tells apart from it move, together, into one new block at the
  end of the list.  All of them are compared under the partition as it was
  before the step.  A sweep refines block after block, the new ones included;
  sweeps are repeated until one of them splits nothing.

  The block of a state is stored beside the list of blocks, with its bound in
  the type: `blockOf` cannot name a block that does not exist.
-/
import LineScan.Dfa.Basic

namespace LineScan

/-! ## §1. Blocks and partitions. -/

/-- A block of states: at least one, in order. -/
structure Block (size : Nat) where
  /-- The first member, which stands for the block. -/
  head : Fin size
  /-- The other members. -/
  tail : List (Fin size)
deriving DecidableEq

namespace Block

variable {size : Nat}

/-- All members, in order. -/
def members (b : Block size) : List (Fin size) := b.head :: b.tail

/-- The block of a list of states, unless there are none. -/
def ofList? : List (Fin size) → Option (Block size)
  | [] => none
  | s :: rest => some ⟨s, rest⟩

theorem members_of_ofList? {l : List (Fin size)} {b : Block size} (h : ofList? l = some b) :
    b.members = l := by
  cases l with
  | nil => cases h
  | cons s rest => cases h; rfl

theorem ofList?_of_mem {l : List (Fin size)} {s : Fin size} (h : s ∈ l) :
    ∃ b, ofList? l = some b ∧ s ∈ b.members := by
  cases l with
  | nil => cases h
  | cons t rest => exact ⟨⟨t, rest⟩, rfl, h⟩

/-- The smallest member. -/
def least (b : Block size) : Nat := b.tail.foldl (fun k s => min k s.val) b.head.val

end Block

/-- States sorted into blocks. -/
structure Partition (size : Nat) where
  /-- The number of blocks. -/
  count : Nat
  /-- The blocks. -/
  blocks : Vector (Block size) count
  /-- The number of the block of each state. -/
  numbers : Vector (Fin count) size

namespace Partition

variable {size : Nat}

/-- The block with a number. -/
def block (P : Partition size) (p : Fin P.count) : Block size := P.blocks[p]

/-- The number of the block of a state. -/
def blockOf (P : Partition size) (s : Fin size) : Fin P.count := P.numbers[s]

/-- The partition with these blocks, in which every state must occur. -/
def ofBlocks (blocks : List (Block size)) (h : ∀ s, ∃ b ∈ blocks, s ∈ b.members) :
    Partition size where
  count := blocks.length
  blocks := ⟨blocks.toArray, List.size_toArray⟩
  numbers := Vector.ofFn fun s =>
    ⟨blocks.findIdx fun b => decide (s ∈ b.members),
      List.findIdx_lt_length_of_exists (by
        obtain ⟨b, hb, hs⟩ := h s
        exact ⟨b, hb, decide_eq_true hs⟩)⟩

/-- Replaces block `p` by what was kept of it and appends what moved out. -/
def splitOff (P : Partition size) (p : Fin P.count) (kept moved : Block size) :
    Partition size where
  count := P.count + 1
  blocks := (P.blocks.set p kept).push moved
  numbers := Vector.ofFn fun s =>
    if s ∈ moved.members then Fin.last P.count else (P.blockOf s).castSucc

theorem blockOf_splitOff_of_mem (P : Partition size) (p : Fin P.count) (kept : Block size)
    {moved : Block size} {s : Fin size} (h : s ∈ moved.members) :
    ((P.splitOff p kept moved).blockOf s).val = P.count := by
  have hs : (P.splitOff p kept moved).blockOf s = _ := Vector.getElem_ofFn s.isLt
  rw [hs, if_pos h]
  rfl

theorem blockOf_splitOff_of_not_mem (P : Partition size) (p : Fin P.count) (kept : Block size)
    {moved : Block size} {s : Fin size} (h : s ∉ moved.members) :
    ((P.splitOff p kept moved).blockOf s).val = (P.blockOf s).val := by
  have hs : (P.splitOff p kept moved).blockOf s = _ := Vector.getElem_ofFn s.isLt
  rw [hs, if_neg h]
  rfl

end Partition

/-! ## §2. Steps and sweeps. -/

/-- The record of a split: what was kept in the block and what moved to the
new one. -/
structure Split (size : Nat) where
  /-- The number of the block that was split. -/
  block : Nat
  /-- What was kept in it. -/
  kept : Block size
  /-- The number of the new block. -/
  fresh : Nat
  /-- What moved to the new block. -/
  moved : Block size
deriving DecidableEq

/-- The record of a sweep. -/
structure Pass (size : Nat) where
  /-- The splits, in order. -/
  splits : List (Split size)
  /-- The number of blocks afterwards. -/
  count : Nat
deriving DecidableEq

namespace Dfa

variable (d : Dfa)

/-- The positions of the states that do not accept, ascending. -/
def rejectingStates : List (Fin d.size) :=
  (List.finRange d.size).filter fun s => !(d.state s).accepting

/-- The accepting states and the others, as far as there are any. -/
def initialBlocks : List (Block d.size) :=
  [d.acceptingStates, d.rejectingStates].filterMap Block.ofList?

theorem exists_mem_initialBlocks (s : Fin d.size) : ∃ b ∈ d.initialBlocks, s ∈ b.members := by
  by_cases h : (d.state s).accepting = true
  · obtain ⟨b, hb, hs⟩ := Block.ofList?_of_mem (l := d.acceptingStates) (s := s)
      (by simpa [acceptingStates] using h)
    exact ⟨b, List.mem_filterMap.2 ⟨_, by simp, hb⟩, hs⟩
  · obtain ⟨b, hb, hs⟩ := Block.ofList?_of_mem (l := d.rejectingStates) (s := s)
      (by simpa [rejectingStates] using h)
    exact ⟨b, List.mem_filterMap.2 ⟨_, by simp, hb⟩, hs⟩

/-- The partition by acceptance. -/
def initialPartition : Partition d.size :=
  Partition.ofBlocks d.initialBlocks d.exists_mem_initialBlocks

/-- Whether some symbol leads from the two states into different blocks, or
from only one of them anywhere. -/
def distinguishes (P : Partition d.size) (s t : Fin d.size) : Bool :=
  alphabet.any fun a =>
    match d.next s a.toByte, d.next t a.toByte with
    | none, none => false
    | some s', some t' => P.blockOf s' != P.blockOf t'
    | _, _ => true

/-- **Refines one block against its first member**; nothing when all members
stay together. -/
def refine? (P : Partition d.size) (p : Fin P.count) : Option (Partition d.size × Split d.size) :=
  let b := P.block p
  -- every member is compared before any of them moves
  let (apart, together) := b.tail.partition (d.distinguishes P b.head)
  (Block.ofList? apart).map fun moved =>
    let kept : Block d.size := ⟨b.head, together⟩
    (P.splitOff p kept moved, ⟨p, kept, P.count, moved⟩)

/-- Refines the blocks with the given numbers in turn, up to the first number
that no block has. -/
def sweepOver (P : Partition d.size) : List Nat → Partition d.size × List (Split d.size)
  | [] => (P, [])
  | p :: rest =>
      if h : p < P.count then
        match d.refine? P ⟨p, h⟩ with
        | none => sweepOver P rest
        | some (P', split) =>
            let (P'', splits) := sweepOver P' rest
            (P'', split :: splits)
      else (P, [])

/-- **Refines every block once**, the ones that arise on the way included.
There are at most as many blocks as states, so the numbers below that count
are enough. -/
def sweep (P : Partition d.size) : Partition d.size × List (Split d.size) :=
  d.sweepOver P (List.range d.size)

/-- Sweeps at most `limit` times, up to the first sweep that splits
nothing. -/
def sweeps (P : Partition d.size) : Nat → Partition d.size × List (Pass d.size)
  | 0 => (P, [])
  | limit + 1 =>
      let (P', splits) := d.sweep P
      let pass : Pass d.size := ⟨splits, P'.count⟩
      if splits.isEmpty then (P', [pass])
      else
        let (P'', passes) := sweeps P' limit
        (P'', pass :: passes)

/-- **The final partition and the sweeps that led to it.**  Every sweep but
the last splits a block, so as many sweeps as there are states are enough. -/
def refinement : Partition d.size × List (Pass d.size) := d.sweeps d.initialPartition d.size

end Dfa

end LineScan
