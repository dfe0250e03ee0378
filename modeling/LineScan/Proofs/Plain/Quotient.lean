/-
  LineScan.Proofs.Plain.Quotient
  ──────────────────────────────
  **MERGING BLOCKS BY THEIR NUMBERS.**

  The blocks are sorted by their smallest members, their positions are
  written to a list, and every target is looked up three times: the number of
  its block, the position of that block, and the group of transitions that
  leads there.  The first member of a block is looked up like any other, since
  a plain list may have none.
-/
import LineScan.Proofs.Dfa.Quotient
import LineScan.Proofs.Plain.Partition

namespace LineScan

/-! ## §1. The order of the blocks. -/

namespace PlainPartition

variable (P : PlainPartition)

/-- What a block is sorted by: one more than its smallest member, so that a
block without members would come first. -/
def sortKey (members : List Nat) : Nat := members.min?.elim 0 (· + 1)

/-- The numbers of the blocks, by smallest member. -/
def order? : Except Fault (List Nat) := do
  let keyed ← (List.range P.blocks.length).mapM fun p => do
    return (sortKey (← lookUp? P.blocks p), p)
  return (keyed.mergeSort fun x y => decide (x.1 ≤ y.1)).map (·.2)

/-- The position of each block in a list of all blocks. -/
def positions? (order : List Nat) : Except Fault (List Nat) :=
  order.zipIdx.foldlM (fun positions (p, i) => overwrite? positions p i)
    (List.replicate P.blocks.length 0)

end PlainPartition

namespace Partition

variable {size : Nat} (P : Partition size)

theorem sortKey_plain (b : Block size) : PlainPartition.sortKey b.plain = b.least + 1 := by
  unfold PlainPartition.sortKey Block.plain Block.members Block.least
  rw [List.map_cons, List.min?_cons', List.foldl_map]
  rfl

theorem order?_plain : P.plain.order? = .ok (P.order.map Fin.val) := by
  have hloop : ((List.range P.count).mapM fun p => do
      return (PlainPartition.sortKey (← lookUp? P.plain.blocks p), p)) =
        .ok ((List.finRange P.count).map fun p => ((P.block p).least + 1, p.val)) := by
    rw [← List.map_coe_finRange_eq_range]
    apply mapM_map_eq_ok
    intro p _
    rw [Dfa.lookUp?_blocks_plain, ok_bind, sortKey_plain]
    rfl
  have hsort : ((List.finRange P.count).map fun p => ((P.block p).least + 1, p.val)).mergeSort
      (fun x y => decide (x.1 ≤ y.1)) = P.order.map fun p => ((P.block p).least + 1, p.val) := by
    symm
    apply List.map_mergeSort
    intro p _ q _
    simp only [Nat.add_le_add_iff_right]
  unfold PlainPartition.order?
  rw [Dfa.length_blocks_plain, hloop, ok_bind, hsort, List.map_map]
  rfl

/-- Writing the positions of different numbers, from `k` on. -/
theorem foldlM_overwrite? {n : Nat} {order : List (Fin n)} (hnodup : order.Nodup) (f : Fin n → Nat)
    (k : Nat) :
    ((order.map Fin.val).zipIdx k).foldlM (fun positions (p, i) => overwrite? positions p i)
        (List.ofFn f) =
      .ok (List.ofFn fun p => if p ∈ order then k + order.idxOf p else f p) := by
  induction order generalizing f k with
  | nil => simp [pure, Except.pure]
  | cons q rest ih =>
      obtain ⟨hq, hrest⟩ := List.nodup_cons.1 hnodup
      rw [List.map_cons, List.zipIdx_cons, List.foldlM_cons]
      show (overwrite? (List.ofFn f) q k >>= _) = _
      rw [overwrite?_ofFn, ok_bind, ih hrest]
      congr 2
      funext p
      by_cases hp : p = q
      · -- the number does not occur again, so its position is not overwritten
        subst hp
        simp [hq]
      · simp [hp, Ne.symm hp, List.idxOf_cons_ne, Nat.add_assoc, Nat.add_comm 1]

theorem positions?_plain :
    P.plain.positions? (P.order.map Fin.val) =
      .ok (List.ofFn fun p => ((P.positions P.order P.length_order P.mem_order).get p).val) := by
  have hpositions : (fun p => if p ∈ P.order then 0 + P.order.idxOf p else 0) =
      fun p => ((P.positions P.order P.length_order P.mem_order).get p).val := by
    funext p
    have hget : (P.positions P.order P.length_order P.mem_order).get p = _ :=
      Vector.getElem_ofFn p.isLt
    rw [if_pos (P.mem_order p), Nat.zero_add, hget]
  unfold PlainPartition.positions?
  rw [Dfa.length_blocks_plain, ← List.ofFn_const, foldlM_overwrite? P.nodup_order, hpositions]

end Partition

/-! ## §2. The quotient. -/

namespace PlainDfa

variable (d : PlainDfa)

/-- Transitions with their targets replaced by the positions of the blocks
they lie in; groups that then share a target become one. -/
def redirect? (P : PlainPartition) (positions : List Nat) (ts : List PlainTransition) :
    Except Fault (List PlainTransition) :=
  ts.foldlM
    (fun merged t => do
      let number ← lookUp? P.numbers t.target
      let target ← lookUp? positions number
      PlainTransition.record? target t.symbols merged)
    []

/-- The state that block `p` becomes at position `i`. -/
def mergedState? (P : PlainPartition) (positions : List Nat) (p i : Nat) :
    Except Fault (PlainState d.capacity) := do
  let members ← lookUp? P.blocks p
  let representative ← lookUp? d.states (← lookUp? members 0)
  let transitions ← redirect? P positions representative.transitions
  return {
    label := representative.label, id := i, index := i, block := p
    accepting := representative.accepting, transitions }

/-- The automaton whose states are the blocks of a partition. -/
def quotient? (P : PlainPartition) : Except Fault PlainDfa := do
  let order ← P.order?
  let positions ← P.positions? order
  let states ← (List.range order.length).mapM fun i => do
    d.mergedState? P positions (← lookUp? order i) i
  return ⟨d.capacity, states⟩

/-- **The automaton with indistinguishable states merged**; one without
states stays as it is. -/
def minimize? : Except Fault PlainDfa := do
  if d.states.isEmpty then return d
  else d.quotient? (← d.refinement?)

end PlainDfa

namespace Dfa

variable (d : Dfa)

theorem redirect?_plain (P : Partition d.size) (positions : Vector (Fin P.count) P.count)
    (ts : Transitions d.size) :
    PlainDfa.redirect? P.plain (List.ofFn fun p => (positions.get p).val)
        (ts.map Transition.plain) =
      .ok ((redirect (fun target => positions.get (P.blockOf target)) ts).map
        Transition.plain) := by
  unfold PlainDfa.redirect? redirect
  rw [List.foldlM_map]
  refine foldlM_eq_ok (List.map Transition.plain) ?_ []
  intro merged t _
  have hnumber : lookUp? P.plain.numbers t.plain.target = .ok (P.blockOf t.target).val :=
    lookUp?_ofFn _ t.target
  rw [hnumber, ok_bind, lookUp?_ofFn, ok_bind]
  exact PlainTransition.record?_map_plain _ _ _

theorem mergedState?_plain (P : Partition d.size) (positions : Vector (Fin P.count) P.count)
    (p i : Fin P.count) :
    d.plain.mergedState? P.plain (List.ofFn fun p => (positions.get p).val) p i =
      .ok (d.mergedState P positions p i).plain := by
  have hhead : lookUp? (P.block p).plain 0 = .ok (P.block p).head.val := rfl
  unfold PlainDfa.mergedState?
  rw [lookUp?_blocks_plain, ok_bind, hhead, ok_bind, lookUp?_states_plain, ok_bind]
  show (PlainDfa.redirect? _ _ ((d.state (P.block p).head).transitions.map Transition.plain) >>= _)
    = _
  rw [redirect?_plain, ok_bind]
  rfl

theorem quotient?_plain (P : Partition d.size) :
    d.plain.quotient? P.plain = .ok (d.quotient P).plain := by
  let positions := P.positions P.order P.length_order P.mem_order
  have hloop : ((List.range P.count).mapM fun i => do
      d.plain.mergedState? P.plain (List.ofFn fun p => (positions.get p).val)
        (← lookUp? (P.order.map Fin.val) i) i) =
        .ok ((List.finRange P.count).map fun i =>
          (d.mergedState P positions (P.order.get (i.cast P.length_order.symm)) i).plain) := by
    rw [← List.map_coe_finRange_eq_range]
    apply mapM_map_eq_ok
    intro i _
    have hentry : lookUp? (P.order.map Fin.val) i =
        .ok (P.order.get (i.cast P.length_order.symm)).val := by
      have hi : i.val < P.order.length := Nat.lt_of_lt_of_eq i.isLt P.length_order.symm
      apply lookUp?_of_getElem?
      rw [List.getElem?_map, List.getElem?_eq_getElem hi]
      rfl
    rw [hentry, ok_bind, mergedState?_plain]
  have hstates : (d.quotient P).plain.states = (List.finRange P.count).map fun i =>
      (d.mergedState P positions (P.order.get (i.cast P.length_order.symm)) i).plain :=
    (d.quotient P).states_plain.trans (List.map_congr_left fun i _ =>
      congrArg State.plain (d.state_quotientBy P P.order P.length_order P.mem_order i))
  unfold PlainDfa.quotient?
  rw [Partition.order?_plain, ok_bind, Partition.positions?_plain, ok_bind, List.length_map,
    Partition.length_order, hloop, ok_bind, ← hstates]
  rfl

/-- **Minimizing by numbers never fails.** -/
theorem minimize?_plain : d.plain.minimize? = .ok d.minimize.plain := by
  have hnonempty : d.plain.states.isEmpty = false := by
    rw [List.isEmpty_eq_false_iff, ← List.length_pos_iff, length_states_plain]
    exact d.size_pos
  unfold PlainDfa.minimize?
  rw [hnonempty, if_neg Bool.false_ne_true, refinement?_plain, ok_bind]
  exact d.quotient?_plain _

end Dfa

end LineScan
