/-
  LineScan.Proofs.Plain.Partition
  ───────────────────────────────
  **REFINING BLOCKS BY THEIR NUMBERS.**

  A partition as lists of plain numbers: the members of each block, and the
  number of the block of each state.  Refinement looks up blocks, states,
  targets and the numbers of their blocks, and writes to both lists.

  The two lists agree because every state that moves is written to both, and
  a number that is written is the number of the block appended next.  That is
  what the types of a `Partition` say, so no access fails.
-/
import LineScan.Proofs.Dfa.Refinement
import LineScan.Proofs.Plain.Subset

namespace LineScan

/-! ## §1. Partitions. -/

/-- States sorted into blocks, by plain numbers. -/
structure PlainPartition where
  /-- The members of each block. -/
  blocks : List (List Nat)
  /-- The number of the block of each state. -/
  numbers : List Nat

/-- The members of a block as plain numbers. -/
def Block.plain {size : Nat} (b : Block size) : List Nat := b.members.map Fin.val

/-- A partition by plain numbers. -/
def Partition.plain {size : Nat} (P : Partition size) : PlainPartition where
  blocks := P.blocks.toList.map Block.plain
  numbers := List.ofFn fun s => (P.blockOf s).val

/-- The members of a list that a question holds of, and the others. -/
def separate? (question : Nat → Except Fault Bool) :
    List Nat → Except Fault (List Nat × List Nat)
  | [] => return ([], [])
  | s :: rest => do
      let holds ← question s
      let (these, those) ← separate? question rest
      return if holds then (s :: these, those) else (these, s :: those)

theorem separate?_map_val {n : Nat} {question : Nat → Except Fault Bool} {p : Fin n → Bool}
    (h : ∀ s : Fin n, question s = .ok (p s)) (l : List (Fin n)) :
    separate? question (l.map Fin.val) =
      .ok ((l.filter p).map Fin.val, (l.filter fun s => !p s).map Fin.val) := by
  induction l with
  | nil => rfl
  | cons s rest ih =>
      rw [List.map_cons, separate?, h, ok_bind, ih]
      cases hs : p s <;> simp [hs, pure, Except.pure, bind, Except.bind]

/-! ## §2. Steps and sweeps. -/

/-- Where a byte leads: the target of the first group that holds it. -/
def PlainTransition.target? (ts : List PlainTransition) (b : Nat) : Option Nat :=
  (ts.find? fun t => t.symbols.contains b).map (·.target)

namespace PlainDfa

variable (d : PlainDfa)

/-- Where a byte leads from a state. -/
def next? (s b : Nat) : Except Fault (Option Nat) := do
  return PlainTransition.target? (← lookUp? d.states s).transitions b

/-- Whether a byte leads from the two states into different blocks, or from
only one of them anywhere. -/
def parts? (P : PlainPartition) (s t b : Nat) : Except Fault Bool := do
  match ← d.next? s b, ← d.next? t b with
  | none, none => return false
  | some s', some t' => return (← lookUp? P.numbers s') != (← lookUp? P.numbers t')
  | _, _ => return true

/-- Whether some byte does. -/
def distinguishes? (P : PlainPartition) (s t : Nat) : Except Fault Bool := do
  let answers ← (List.range alphabetSize).mapM (d.parts? P s t)
  return answers.any id

/-- Refines one block against its first member. -/
def refine? (P : PlainPartition) (p : Nat) : Except Fault (Option PlainPartition) := do
  match ← lookUp? P.blocks p with
  | [] => return none
  | head :: tail =>
      let (moved, together) ← separate? (d.distinguishes? P head) tail
      if moved.isEmpty then return none
      else
        let blocks ← overwrite? P.blocks p (head :: together)
        let numbers ← overwriteAll? P.numbers moved P.blocks.length
        return some ⟨blocks ++ [moved], numbers⟩

/-- Refines the blocks with the given numbers in turn, up to the first number
that no block has, and counts the splits. -/
def sweepOver? (P : PlainPartition) : List Nat → Except Fault (PlainPartition × Nat)
  | [] => return (P, 0)
  | p :: rest =>
      if p < P.blocks.length then do
        match ← d.refine? P p with
        | none => sweepOver? P rest
        | some P' =>
            let (P'', splits) ← sweepOver? P' rest
            return (P'', splits + 1)
      else return (P, 0)

/-- Sweeps at most `limit` times, up to the first sweep that splits
nothing. -/
def sweeps? (P : PlainPartition) : Nat → Except Fault PlainPartition
  | 0 => return P
  | limit + 1 => do
      let (P', splits) ← d.sweepOver? P (List.range d.states.length)
      if splits = 0 then return P' else sweeps? P' limit

/-- The accepting states and the others, as far as there are any. -/
def initialPartition? : Except Fault PlainPartition := do
  let (accepting, rejecting) ← separate? (fun s => do return (← lookUp? d.states s).accepting)
    (List.range d.states.length)
  let blocks := [accepting, rejecting].filter fun block => !block.isEmpty
  let numbers ← blocks.zipIdx.foldlM (fun numbers (block, p) => overwriteAll? numbers block p)
    (List.replicate d.states.length 0)
  return ⟨blocks, numbers⟩

/-- The final partition. -/
def refinement? : Except Fault PlainPartition := do
  d.sweeps? (← d.initialPartition?) d.states.length

end PlainDfa

namespace Dfa

variable (d : Dfa)

theorem length_states_plain : d.plain.states.length = d.size := by
  unfold plain
  rw [List.length_map, Vector.length_toList]

theorem lookUp?_states_plain (s : Fin d.size) :
    lookUp? d.plain.states s = .ok (d.state s).plain :=
  lookUp?_map_toList d.states State.plain s

theorem next?_plain (s : Fin d.size) (a : Symbol) :
    d.plain.next? s a = .ok ((d.next s a.toByte).map Fin.val) := by
  have htarget : PlainTransition.target? (d.state s).plain.transitions a =
      (d.next s a.toByte).map Fin.val := by
    unfold Dfa.next State.target? Transitions.target? PlainTransition.target? State.plain
    rw [List.find?_map, Option.map_map, Option.map_map, Symbol.toNat_toByte]
    rfl
  unfold PlainDfa.next?
  rw [lookUp?_states_plain, ok_bind, htarget]
  rfl

variable {d}

theorem parts?_plain (P : Partition d.size) (s t : Fin d.size) (a : Symbol) :
    d.plain.parts? P.plain s t a =
      .ok (match d.next s a.toByte, d.next t a.toByte with
        | none, none => false
        | some s', some t' => P.blockOf s' != P.blockOf t'
        | _, _ => true) := by
  unfold PlainDfa.parts?
  rw [next?_plain, ok_bind, next?_plain, ok_bind]
  cases d.next s a.toByte with
  | none => cases d.next t a.toByte <;> rfl
  | some s' =>
      cases d.next t a.toByte with
      | none => rfl
      | some t' =>
          have hs : lookUp? P.plain.numbers s' = .ok (P.blockOf s').val := lookUp?_ofFn _ s'
          have ht : lookUp? P.plain.numbers t' = .ok (P.blockOf t').val := lookUp?_ofFn _ t'
          show (lookUp? P.plain.numbers s' >>= fun x => lookUp? P.plain.numbers t' >>= fun y =>
            pure (x != y)) = _
          rw [hs, ok_bind, ht, ok_bind]
          congr 1
          rw [Bool.eq_iff_iff, bne_iff_ne, bne_iff_ne, ne_eq, ne_eq, Fin.val_inj]

theorem distinguishes?_plain (P : Partition d.size) (s t : Fin d.size) :
    d.plain.distinguishes? P.plain s t = .ok (d.distinguishes P s t) := by
  unfold PlainDfa.distinguishes? distinguishes
  rw [← map_val_alphabet, mapM_map_eq_ok fun a _ => parts?_plain P s t a, ok_bind, List.any_map]
  rfl

theorem lookUp?_blocks_plain {size : Nat} (P : Partition size) (p : Fin P.count) :
    lookUp? P.plain.blocks p = .ok (P.block p).plain :=
  lookUp?_map_toList P.blocks Block.plain p

theorem length_blocks_plain {size : Nat} (P : Partition size) :
    P.plain.blocks.length = P.count := by
  unfold Partition.plain
  rw [List.length_map, Vector.length_toList]

/-- Splitting a block writes to both lists. -/
theorem plain_splitOff {size : Nat} (P : Partition size) (p : Fin P.count)
    (kept moved : Block size) :
    (P.splitOff p kept moved).plain =
      ⟨(P.blocks.toList.set p kept).map Block.plain ++ [moved.plain],
        List.ofFn fun s => if s ∈ moved.members then P.count else (P.blockOf s).val⟩ := by
  have hblocks : (P.splitOff p kept moved).blocks.toList.map Block.plain =
      (P.blocks.toList.set p kept).map Block.plain ++ [moved.plain] := by
    show ((P.blocks.set p kept).push moved).toList.map Block.plain = _
    rw [Vector.toList_push, Vector.toList_set, List.map_append]
    rfl
  have hnumbers : (fun s => ((P.splitOff p kept moved).blockOf s).val) =
      fun s => if s ∈ moved.members then P.count else (P.blockOf s).val := by
    funext s
    by_cases hs : s ∈ moved.members
    · rw [if_pos hs, P.blockOf_splitOff_of_mem p kept hs]
    · rw [if_neg hs, P.blockOf_splitOff_of_not_mem p kept hs]
  unfold Partition.plain
  rw [hblocks, hnumbers]

theorem refine?_plain (P : Partition d.size) (p : Fin P.count) :
    d.plain.refine? P.plain p = .ok ((d.refine? P p).map fun r => r.1.plain) := by
  have hblock : (P.block p).plain = (P.block p).head.val :: (P.block p).tail.map Fin.val := rfl
  have hseparate : separate? (d.plain.distinguishes? P.plain (P.block p).head)
      ((P.block p).tail.map Fin.val) =
        .ok ((d.apart P p).map Fin.val, (d.kept P p).tail.map Fin.val) :=
    separate?_map_val (distinguishes?_plain P (P.block p).head) _
  unfold PlainDfa.refine?
  rw [lookUp?_blocks_plain, ok_bind, hblock, refine?_eq]
  show (separate? _ _ >>= _) = _
  rw [hseparate, ok_bind]
  cases hapart : d.apart P p with
  | nil => rfl
  | cons s rest =>
      let moved : Block d.size := ⟨s, rest⟩
      have hlength : P.plain.blocks.length = P.count := length_blocks_plain P
      have hblocks : overwrite? P.plain.blocks p (d.kept P p).plain =
          .ok ((P.blocks.toList.set p (d.kept P p)).map Block.plain) :=
        overwrite?_map Block.plain (by rw [Vector.length_toList]; exact p.isLt) _
      have hnumbers : overwriteAll? P.plain.numbers (moved.members.map Fin.val) P.count =
          .ok (List.ofFn fun t => if t ∈ moved.members then P.count else (P.blockOf t).val) :=
        overwriteAll?_ofFn _ _ _
      show (overwrite? P.plain.blocks p (d.kept P p).plain >>= fun blocks =>
        overwriteAll? P.plain.numbers (moved.members.map Fin.val) P.plain.blocks.length >>=
          fun numbers => pure (some (PlainPartition.mk (blocks ++ [moved.plain]) numbers))) = _
      rw [hblocks, ok_bind, hlength, hnumbers, ok_bind, ← plain_splitOff]
      rfl

theorem sweepOver?_plain (P : Partition d.size) (numbers : List Nat) :
    d.plain.sweepOver? P.plain numbers =
      .ok ((d.sweepOver P numbers).1.plain, (d.sweepOver P numbers).2.length) := by
  induction numbers generalizing P with
  | nil => rfl
  | cons p rest ih =>
      unfold PlainDfa.sweepOver? sweepOver
      rw [length_blocks_plain]
      by_cases hp : p < P.count
      · rw [if_pos hp, dif_pos hp, refine?_plain P ⟨p, hp⟩, ok_bind]
        cases d.refine? P ⟨p, hp⟩ with
        | none => exact ih P
        | some r =>
            show (d.plain.sweepOver? r.1.plain rest >>= _) = _
            rw [ih, ok_bind]
            rfl
      · rw [if_neg hp, dif_neg hp]
        rfl

theorem sweeps?_plain (P : Partition d.size) (limit : Nat) :
    d.plain.sweeps? P.plain limit = .ok (d.sweeps P limit).1.plain := by
  induction limit generalizing P with
  | zero => rfl
  | succ limit ih =>
      unfold PlainDfa.sweeps? sweeps sweep
      rw [length_states_plain, sweepOver?_plain, ok_bind]
      obtain ⟨P', splits⟩ := d.sweepOver P (List.range d.size)
      cases splits with
      | nil => rfl
      | cons split splits => exact ih P'

/-- Writing the numbers of disjoint blocks, from `k` on. -/
theorem foldlM_overwriteAll? {size : Nat} {blocks : List (Block size)}
    (hdisjoint : blocks.Pairwise fun b b' => ∀ s ∈ b.members, s ∉ b'.members)
    (f : Fin size → Nat) (k : Nat) :
    ((blocks.map Block.plain).zipIdx k).foldlM
        (fun numbers (block, p) => overwriteAll? numbers block p) (List.ofFn f) =
      .ok (List.ofFn fun s => if ∃ b ∈ blocks, s ∈ b.members then
        k + blocks.findIdx fun b => decide (s ∈ b.members) else f s) := by
  induction blocks generalizing f k with
  | nil => simp [pure, Except.pure]
  | cons b rest ih =>
      obtain ⟨hb, hrest⟩ := List.pairwise_cons.1 hdisjoint
      have hwrite : overwriteAll? (List.ofFn f) b.plain k =
          .ok (List.ofFn fun s => if s ∈ b.members then k else f s) :=
        overwriteAll?_ofFn f b.members k
      rw [List.map_cons, List.zipIdx_cons, List.foldlM_cons]
      show (overwriteAll? (List.ofFn f) b.plain k >>= _) = _
      rw [hwrite, ok_bind, ih hrest]
      congr 2
      funext s
      by_cases hs : s ∈ b.members
      · -- no later block holds the state, so its number is not written again
        have hnone : ¬ ∃ b' ∈ rest, s ∈ b'.members := by
          intro h
          obtain ⟨b', hb', hs'⟩ := h
          exact hb b' hb' s hs hs'
        simp [hs, hnone, List.findIdx_cons]
      · simp [hs, List.findIdx_cons, Nat.add_assoc, Nat.add_comm 1]

theorem initialPartition?_plain : d.plain.initialPartition? = .ok d.initialPartition.plain := by
  have hseparate : separate? (fun s => do return (← lookUp? d.plain.states s).accepting)
      (List.range d.size) =
        .ok (d.acceptingStates.map Fin.val, d.rejectingStates.map Fin.val) := by
    rw [← List.map_coe_finRange_eq_range]
    apply separate?_map_val
    intro s
    rw [lookUp?_states_plain, ok_bind]
    rfl
  have hblocks : ([d.acceptingStates.map Fin.val, d.rejectingStates.map Fin.val].filter
      fun block => !block.isEmpty) = d.initialBlocks.map Block.plain := by
    unfold initialBlocks
    cases d.acceptingStates <;> cases d.rejectingStates <;> rfl
  have hnumbers := foldlM_overwriteAll? d.disjoint_initialBlocks (fun _ => 0) 0
  unfold PlainDfa.initialPartition?
  rw [length_states_plain, hseparate, ok_bind]
  show ((List.zipIdx (List.filter _ _)).foldlM _ _ >>= _) = _
  rw [hblocks, ← List.ofFn_const, hnumbers, ok_bind]
  have hfound : (fun s => if ∃ b ∈ d.initialBlocks, s ∈ b.members then
      0 + d.initialBlocks.findIdx (fun b => decide (s ∈ b.members)) else 0) =
        fun s => (d.initialPartition.blockOf s).val := by
    funext s
    rw [if_pos (d.exists_mem_initialBlocks s), Nat.zero_add]
    unfold Partition.blockOf initialPartition Partition.ofBlocks
    simp
  rw [hfound]
  rfl

/-- **Refining by numbers never fails.** -/
theorem refinement?_plain : d.plain.refinement? = .ok d.refinement.1.plain := by
  unfold PlainDfa.refinement? refinement
  rw [initialPartition?_plain, ok_bind, length_states_plain, sweeps?_plain]

end Dfa

end LineScan
