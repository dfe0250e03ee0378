/-
  LineScan.Proofs.Dfa.TruePartition
  ─────────────────────────────────
  **A TRUE PARTITION AT EVERY STEP.**

  Blocks and stored numbers are two records of one partition.  `Proper` says
  all that makes them one: the blocks are ascending, no two of them share a
  state, every state is listed once and has the number of the block that lists
  it, and a block accepts or does not.

  A refinement step either parts nothing, or leaves of the block what is not
  told apart from its first member and appends the rest as one block
  (`Division`).  Both parts are sublists of the old block, so they are
  ascending again (`Ascending.refine?`); the rest is carried by `Justified`.
  The partitions a run of sweeps passes through are `partitionAfter`, each one
  step from the one before.
-/
import LineScan.Proofs.Dfa.Refinement

namespace LineScan

namespace Dfa

variable {d : Dfa} {P P' : Partition d.size} {p : Fin P.count} {s : Fin d.size}

/-! ## §1. True partitions. -/

/-- **Every state is in one block, and its number says which.** -/
structure Proper (d : Dfa) (P : Partition d.size) : Prop where
  /-- No block is empty. -/
  nonempty : ∀ p, (P.block p).members ≠ []
  /-- The members of a block ascend. -/
  ascending : ∀ p, (P.block p).members.Pairwise (· < ·)
  /-- Two blocks share no state. -/
  disjoint : ∀ p q, p ≠ q → ∀ s ∈ (P.block p).members, s ∉ (P.block q).members
  /-- All blocks together list every state once. -/
  once : ∀ s, ((List.finRange P.count).flatMap fun p => (P.block p).members).count s = 1
  /-- A block lists the states that have its number. -/
  numbered : ∀ p s, s ∈ (P.block p).members ↔ P.blockOf s = p
  /-- A block accepts or does not. -/
  accepting : ∀ p, ∀ s ∈ (P.block p).members, ∀ t ∈ (P.block p).members,
    (d.state s).accepting = (d.state t).accepting

/-- The members of every block ascend. -/
def Ascending (d : Dfa) (P : Partition d.size) : Prop :=
  ∀ p, (P.block p).members.Pairwise (· < ·)

/-- The blocks together list every state once. -/
theorem Ascending.count_flatMap (hP : d.Ascending P) (hvalid : P.Valid) (s : Fin d.size) :
    ((List.finRange P.count).flatMap fun p => (P.block p).members).count s = 1 := by
  have hnodup : ((List.finRange P.count).flatMap fun p => (P.block p).members).Nodup := by
    refine List.nodup_flatMap.2 ⟨fun p _ => (hP p).imp Fin.ne_of_lt, ?_⟩
    refine (List.nodup_finRange _).imp fun {p q} hpq => ?_
    intro s hp hq
    exact hpq (((hvalid p s).1 hp).symm.trans ((hvalid q s).1 hq))
  refine List.count_eq_one_of_mem hnodup (List.mem_flatMap.2 ?_)
  exact ⟨P.blockOf s, List.mem_finRange _, (hvalid _ s).2 rfl⟩

/-- Ascending blocks in step with the numbers, none of which mixes acceptance,
are a true partition. -/
theorem Justified.proper (hP : d.Justified P) (hasc : d.Ascending P) : d.Proper P where
  nonempty _ := List.cons_ne_nil _ _
  ascending := hasc
  disjoint p q hpq s hp hq := hpq (((hP.valid p s).1 hp).symm.trans ((hP.valid q s).1 hq))
  once := hasc.count_flatMap hP.valid
  numbered := hP.valid
  accepting p s hs t ht :=
    hP.accepting s t (((hP.valid p s).1 hs).trans ((hP.valid p t).1 ht).symm)

/-! ## §2. One step. -/

/-- **Block `p` is split in two**: one part keeps its place and its first
member, the other is appended. -/
structure Division (d : Dfa) (P : Partition d.size) (p : Fin P.count) (P' : Partition d.size)
    (split : Split d.size) : Prop where
  /-- There is one block more. -/
  count : P'.count = P.count + 1
  /-- The part that is kept stands where the block stood. -/
  kept : split.block = p.val ∧ ∀ q : Fin P'.count, q.val = split.block → P'.block q = split.kept
  /-- The part that moves is appended. -/
  moved : split.fresh = P.count ∧ ∀ q : Fin P'.count, q.val = split.fresh → P'.block q = split.moved
  /-- The other blocks stay as they are. -/
  others : ∀ q : Fin P'.count, ∀ r : Fin P.count, q.val = r.val → r ≠ p → P'.block q = P.block r
  /-- The first member is kept. -/
  head : split.kept.head = (P.block p).head
  /-- Kept are the members that no symbol tells apart from the first one. -/
  members_kept : split.kept.members =
    (P.block p).members.filter fun s => !d.distinguishes P (P.block p).head s
  /-- The others move. -/
  members_moved : split.moved.members =
    (P.block p).members.filter (d.distinguishes P (P.block p).head)

theorem members_kept_eq (P : Partition d.size) (p : Fin P.count) :
    (d.kept P p).members =
      (P.block p).members.filter fun s => !d.distinguishes P (P.block p).head s := by
  simp [kept, Block.members, distinguishes_self]

theorem apart_eq (P : Partition d.size) (p : Fin P.count) :
    d.apart P p = (P.block p).members.filter (d.distinguishes P (P.block p).head) := by
  simp [apart, Block.members, distinguishes_self]

/-- **A step that parts something** splits one block in two. -/
theorem division_of_refine? {split : Split d.size} (h : d.refine? P p = some (P', split)) :
    d.Division P p P' split := by
  rw [refine?_eq, Option.map_eq_some_iff] at h
  obtain ⟨moved, hmoved, he⟩ := h
  cases he
  exact {
    count := rfl
    kept := ⟨rfl, fun q hq => by
      have hlt : q.val < P.count := by rw [hq]; exact p.isLt
      rw [Partition.block_splitOff_of_lt hlt, if_pos (Fin.ext hq)]⟩
    moved := ⟨rfl, fun q hq => Partition.block_splitOff_of_eq hq⟩
    others := fun q r hq hr => by
      have hlt : q.val < P.count := by rw [hq]; exact r.isLt
      have hqr : (⟨q.val, hlt⟩ : Fin P.count) = r := Fin.ext hq
      rw [Partition.block_splitOff_of_lt hlt, hqr, if_neg hr]
    head := rfl
    members_kept := members_kept_eq P p
    members_moved := (Block.members_of_ofList? hmoved).trans (apart_eq P p) }

/-- A step keeps the blocks ascending. -/
theorem Ascending.refine? (hP : d.Ascending P) {split : Split d.size}
    (h : d.refine? P p = some (P', split)) : d.Ascending P' := by
  have hdiv := division_of_refine? h
  intro q
  rcases Nat.lt_or_ge q.val P.count with hq | hq
  · by_cases hqp : q.val = p.val
    · rw [hdiv.kept.2 q (hqp.trans hdiv.kept.1.symm), hdiv.members_kept]
      exact (hP p).filter _
    · rw [hdiv.others q ⟨q.val, hq⟩ rfl fun h => hqp (congrArg Fin.val h)]
      exact hP _
  · have hlt : q.val < P.count + 1 := hdiv.count ▸ q.isLt
    rw [hdiv.moved.2 q ((Nat.le_antisymm (Nat.le_of_lt_succ hlt) hq).trans hdiv.moved.1.symm),
      hdiv.members_moved]
    exact (hP p).filter _

/-- **What a step may do to a partition**: nothing, when no member of the
block is told apart from the first one, or split the block in two. -/
inductive Refines (d : Dfa) (P : Partition d.size) (p : Fin P.count) : Prop
  | unchanged (h : d.refine? P p = none)
      (together : ∀ s ∈ (P.block p).members, d.distinguishes P (P.block p).head s = false)
  | split (P' : Partition d.size) (split : Split d.size) (h : d.refine? P p = some (P', split))
      (division : d.Division P p P' split) (proper : d.Proper P')

theorem Justified.refines (hP : d.Justified P) (hasc : d.Ascending P) (p : Fin P.count) :
    d.Refines P p := by
  cases h : d.refine? P p with
  | none =>
      refine .unchanged h fun s hs => ?_
      exact distinguishes_of_refine?_eq_none hP.valid h ((hP.valid p s).1 hs)
  | some result =>
      obtain ⟨P', split⟩ := result
      exact .split P' split h (division_of_refine? h)
        ((hP.refine? h).1.proper (hasc.refine? h))

/-! ## §3. Runs of sweeps. -/

/-- The members of the initial blocks ascend. -/
theorem ascending_initialPartition (d : Dfa) : d.Ascending d.initialPartition := by
  intro p
  have hblock : d.initialPartition.block p ∈ d.initialBlocks := List.get_mem d.initialBlocks _
  obtain ⟨l, hl, hbl⟩ := List.mem_filterMap.1 hblock
  rw [Block.members_of_ofList? hbl]
  have hfin : (List.finRange d.size).Pairwise (· < ·) := List.pairwise_lt_finRange _
  rcases List.mem_cons.1 hl with hl | hl
  · rw [hl]
    exact hfin.filter _
  · rw [List.mem_singleton.1 hl]
    exact hfin.filter _

/-- The partition after a step at block `k`; past the last block it stays as
it is. -/
def refineAt (d : Dfa) (P : Partition d.size) (k : Nat) : Partition d.size :=
  if h : k < P.count then ((d.refine? P ⟨k, h⟩).map Prod.fst).getD P else P

theorem refineAt_of_le {k : Nat} (h : P.count ≤ k) : d.refineAt P k = P :=
  dif_neg (Nat.not_lt.2 h)

/-- A sweep ends past the last block and takes a step before. -/
theorem sweepOver_cons (P : Partition d.size) (k : Nat) (rest : List Nat) :
    (d.sweepOver P (k :: rest)).1 =
      if k < P.count then (d.sweepOver (d.refineAt P k) rest).1 else P := by
  unfold refineAt
  rw [sweepOver]
  by_cases hk : k < P.count
  · rw [dif_pos hk, dif_pos hk, if_pos hk]
    cases d.refine? P ⟨k, hk⟩ <;> rfl
  · rw [dif_neg hk, if_neg hk]

/-- **A sweep goes on by one step.** -/
theorem sweepOver_range'_succ (P : Partition d.size) (k n : Nat) :
    (d.sweepOver P (List.range' k (n + 1))).1 =
      d.refineAt (d.sweepOver P (List.range' k n)).1 (k + n) := by
  induction n generalizing P k with
  | zero =>
      rw [List.range'_one, sweepOver_cons]
      split
      case isTrue => rfl
      case isFalse hk => exact (refineAt_of_le (Nat.not_lt.1 hk)).symm
  | succ n ih =>
      have hrange : List.range' k (n + 1) = k :: List.range' (k + 1) n := List.range'_succ
      have hstep : k + (n + 1) = k + 1 + n := by omega
      rw [List.range'_succ, sweepOver_cons, hrange, sweepOver_cons, hstep]
      split
      case isTrue => exact ih _ _
      case isFalse hk =>
          -- the sweep has ended, and so has the shorter one
          exact (refineAt_of_le (by omega)).symm

theorem Ascending.refineAt (hP : d.Ascending P) (k : Nat) : d.Ascending (d.refineAt P k) := by
  unfold Dfa.refineAt
  split
  case isTrue hk =>
      cases hrefine : d.refine? P ⟨k, hk⟩ with
      | none => exact hP
      | some result => exact hP.refine? hrefine
  case isFalse => exact hP

theorem Ascending.sweepOver (hP : d.Ascending P) (l : List Nat) :
    d.Ascending (d.sweepOver P l).1 := by
  induction l generalizing P with
  | nil => exact hP
  | cons k rest ih =>
      rw [sweepOver_cons]
      split
      case isTrue => exact ih (hP.refineAt k)
      case isFalse => exact hP

/-- What every sweep keeps, any number of sweeps keeps. -/
theorem sweeps_induction {motive : Partition d.size → Prop}
    (hsweep : ∀ P, motive P → motive (d.sweep P).1) (limit : Nat) (hP : motive P) :
    motive (d.sweeps P limit).1 := by
  induction limit generalizing P with
  | zero => exact hP
  | succ limit ih =>
      unfold sweeps
      cases hempty : (d.sweep P).2.isEmpty with
      | true =>
          simp only [hempty]
          exact hsweep P hP
      | false =>
          simp only [hempty]
          exact ih (hsweep P hP)

/-- The partition after so many full sweeps and so many steps of the next
one. -/
def partitionAfter (d : Dfa) (passes steps : Nat) : Partition d.size :=
  (d.sweepOver (d.sweeps d.initialPartition passes).1 (List.range steps)).1

theorem partitionAfter_succ (d : Dfa) (passes steps : Nat) :
    d.partitionAfter passes (steps + 1) = d.refineAt (d.partitionAfter passes steps) steps := by
  unfold partitionAfter
  rw [List.range_eq_range', List.range_eq_range', sweepOver_range'_succ, Nat.zero_add]

theorem justified_partitionAfter (d : Dfa) (passes steps : Nat) :
    d.Justified (d.partitionAfter passes steps) := by
  have hsweeps : d.Justified (d.sweeps d.initialPartition passes).1 :=
    sweeps_induction (fun P hP => (hP.sweepOver _).1) passes d.justified_initialPartition
  exact (hsweeps.sweepOver _).1

theorem ascending_partitionAfter (d : Dfa) (passes steps : Nat) :
    d.Ascending (d.partitionAfter passes steps) := by
  have hsweeps : d.Ascending (d.sweeps d.initialPartition passes).1 :=
    sweeps_induction (fun P hP => hP.sweepOver _) passes d.ascending_initialPartition
  exact hsweeps.sweepOver _

/-- **Refinement keeps a true partition**: it starts with one, by acceptance,
and has one after every step of every sweep.  Whatever block is refined next
stays as it is, or is split in two and leaves a true partition again. -/
theorem proper_partitionAfter (d : Dfa) :
    d.partitionAfter 0 0 = d.initialPartition ∧
      ∀ passes steps : Nat,
        d.Proper (d.partitionAfter passes steps) ∧
        d.partitionAfter passes (steps + 1) = d.refineAt (d.partitionAfter passes steps) steps ∧
        d.partitionAfter passes d.size = (d.sweep (d.sweeps d.initialPartition passes).1).1 ∧
        ∀ p, d.Refines (d.partitionAfter passes steps) p := by
  refine ⟨rfl, fun passes steps => ?_⟩
  have hjust := d.justified_partitionAfter passes steps
  have hasc := d.ascending_partitionAfter passes steps
  exact ⟨hjust.proper hasc, d.partitionAfter_succ passes steps, rfl,
    fun p => hjust.refines hasc p⟩

end Dfa

end LineScan
