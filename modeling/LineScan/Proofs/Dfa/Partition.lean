/-
  LineScan.Proofs.Dfa.Partition
  ─────────────────────────────
  **PARTITIONS IN STEP WITH THEMSELVES.**

  A partition stores its blocks and, beside them, the number of the block of
  each state.  It is `Valid` when the two agree.  Then no two blocks share a
  state, and since no block is empty there are at most as many blocks as
  states.

  Splitting off keeps a partition valid, as long as what is kept and what is
  moved are the members that do, and the members that do not, meet some
  condition (`Valid.splitOff`).
-/
import LineScan.Dfa.Partition
import Mathlib.Data.Fintype.Card

namespace LineScan

namespace Partition

variable {size : Nat} {P : Partition size}

/-! ## §1. Blocks and numbers. -/

/-- A state is a member of the block whose number is stored for it, and of no
other. -/
def Valid (P : Partition size) : Prop := ∀ p s, s ∈ (P.block p).members ↔ P.blockOf s = p

theorem Valid.blockOf_head (h : P.Valid) (p : Fin P.count) : P.blockOf (P.block p).head = p :=
  (h p _).1 List.mem_cons_self

theorem Valid.blockOf_surjective (h : P.Valid) : Function.Surjective P.blockOf :=
  fun p => ⟨(P.block p).head, h.blockOf_head p⟩

/-- There are at most as many blocks as states. -/
theorem Valid.count_le (h : P.Valid) : P.count ≤ size := by
  have := Fintype.card_le_of_surjective P.blockOf h.blockOf_surjective
  rwa [Fintype.card_fin, Fintype.card_fin] at this

theorem valid_ofBlocks {blocks : List (Block size)} (h : ∀ s, ∃ b ∈ blocks, s ∈ b.members)
    (hdisjoint : blocks.Pairwise fun b b' => ∀ s ∈ b.members, s ∉ b'.members) :
    (ofBlocks blocks h).Valid := by
  intro p s
  have hnumber : ((ofBlocks blocks h).blockOf s).val =
      blocks.findIdx fun b => decide (s ∈ b.members) := by
    unfold blockOf ofBlocks
    simp
  have hlt : (blocks.findIdx fun b => decide (s ∈ b.members)) < blocks.length := by
    rw [← hnumber]
    exact ((ofBlocks blocks h).blockOf s).isLt
  have hfound : s ∈ (blocks[blocks.findIdx fun b => decide (s ∈ b.members)]).members :=
    of_decide_eq_true (List.findIdx_getElem (w := hlt))
  have hblock : (ofBlocks blocks h).block p = blocks.get p := rfl
  rw [hblock, Fin.ext_iff, hnumber]
  constructor
  · intro hs
    -- a state in two blocks of the list is in one block
    by_contra hne
    rcases Nat.lt_or_gt_of_ne hne with hlt' | hlt'
    · exact List.pairwise_iff_getElem.1 hdisjoint _ _ hlt p.isLt hlt' s hfound hs
    · exact List.pairwise_iff_getElem.1 hdisjoint _ _ p.isLt hlt hlt' s hs hfound
  · intro hp
    have hget : blocks.get ⟨_, hlt⟩ = blocks.get p := congrArg blocks.get (Fin.ext hp)
    rw [← hget]
    exact hfound

/-! ## §2. Splitting. -/

/-- A block is split by a condition: the members that meet it move. -/
structure SplitBy (P : Partition size) (p : Fin P.count) (kept moved : Block size)
    (c : Fin size → Prop) : Prop where
  /-- The members that meet the condition move. -/
  moved : ∀ s, s ∈ moved.members ↔ P.blockOf s = p ∧ c s
  /-- The others are kept. -/
  kept : ∀ s, s ∈ kept.members ↔ P.blockOf s = p ∧ ¬ c s

variable {p : Fin P.count} {kept moved : Block size} {c : Fin size → Prop}

theorem block_splitOff_of_eq {q : Fin (P.splitOff p kept moved).count} (hq : q.val = P.count) :
    (P.splitOff p kept moved).block q = moved := by
  obtain ⟨q, hlt⟩ := q
  cases hq
  exact Vector.getElem_push_eq

theorem block_splitOff_of_lt {q : Fin (P.splitOff p kept moved).count} (hq : q.val < P.count) :
    (P.splitOff p kept moved).block q =
      if (⟨q.val, hq⟩ : Fin P.count) = p then kept else P.block ⟨q.val, hq⟩ := by
  obtain ⟨q, hlt⟩ := q
  refine (Vector.getElem_push_lt hq).trans ((Vector.getElem_set _ hq).trans ?_)
  simp only [Fin.ext_iff, eq_comm]
  rfl

/-- **Splitting keeps a partition valid.** -/
theorem SplitBy.valid (h : P.SplitBy p kept moved c) (hP : P.Valid) :
    (P.splitOff p kept moved).Valid := by
  intro q s
  rw [Fin.ext_iff]
  by_cases hs : s ∈ moved.members
  · have hmoved := (h.moved s).1 hs
    rw [P.blockOf_splitOff_of_mem p kept hs]
    rcases Nat.lt_or_ge q.val P.count with hq | hq
    · rw [block_splitOff_of_lt hq]
      refine ⟨fun hmem => ?_, fun heq => absurd heq (Nat.ne_of_gt hq)⟩
      split at hmem
      case isTrue => exact absurd hmoved.2 ((h.kept s).1 hmem).2
      case isFalse hne =>
          rw [hP] at hmem
          exact absurd (hmem.symm.trans hmoved.1) hne
    · have heq : q.val = P.count := Nat.le_antisymm (Nat.le_of_lt_succ q.isLt) hq
      rw [block_splitOff_of_eq heq, heq]
      exact ⟨fun _ => rfl, fun _ => hs⟩
  · rw [P.blockOf_splitOff_of_not_mem p kept hs]
    rcases Nat.lt_or_ge q.val P.count with hq | hq
    · rw [block_splitOff_of_lt hq]
      split
      case isTrue heq =>
          rw [h.kept, ← heq, Fin.ext_iff]
          refine ⟨fun hmem => hmem.1, fun hmem => ⟨hmem, fun hc => hs ?_⟩⟩
          exact (h.moved s).2 ⟨heq ▸ Fin.ext hmem, hc⟩
      case isFalse => rw [hP, Fin.ext_iff]
    · have heq : q.val = P.count := Nat.le_antisymm (Nat.le_of_lt_succ q.isLt) hq
      rw [block_splitOff_of_eq heq, heq]
      exact ⟨fun hmem => absurd hmem hs,
        fun hval => absurd hval (Nat.ne_of_lt (P.blockOf s).isLt)⟩

/-- Two states stay in one block exactly when they were in one block and the
condition does not part them. -/
theorem SplitBy.blockOf_eq_iff (h : P.SplitBy p kept moved c) (s t : Fin size) :
    (P.splitOff p kept moved).blockOf s = (P.splitOff p kept moved).blockOf t ↔
      P.blockOf s = P.blockOf t ∧ (P.blockOf s = p → (c s ↔ c t)) := by
  have hnew : ∀ u : Fin size, (P.blockOf u).val ≠ P.count :=
    fun u => Nat.ne_of_lt (P.blockOf u).isLt
  rw [Fin.ext_iff]
  by_cases hs : s ∈ moved.members
  · have hs' := (h.moved s).1 hs
    rw [P.blockOf_splitOff_of_mem p kept hs]
    by_cases ht : t ∈ moved.members
    · have ht' := (h.moved t).1 ht
      rw [P.blockOf_splitOff_of_mem p kept ht]
      exact ⟨fun _ => ⟨hs'.1.trans ht'.1.symm, fun _ => ⟨fun _ => ht'.2, fun _ => hs'.2⟩⟩,
        fun _ => rfl⟩
    · rw [P.blockOf_splitOff_of_not_mem p kept ht]
      refine ⟨fun heq => absurd heq.symm (hnew t), fun hst => absurd ?_ ht⟩
      exact (h.moved t).2 ⟨hst.1 ▸ hs'.1, (hst.2 hs'.1).1 hs'.2⟩
  · rw [P.blockOf_splitOff_of_not_mem p kept hs]
    by_cases ht : t ∈ moved.members
    · have ht' := (h.moved t).1 ht
      rw [P.blockOf_splitOff_of_mem p kept ht]
      refine ⟨fun heq => absurd heq (hnew s), fun hst => absurd ?_ hs⟩
      have hsp : P.blockOf s = p := hst.1.trans ht'.1
      exact (h.moved s).2 ⟨hsp, (hst.2 hsp).2 ht'.2⟩
    · rw [P.blockOf_splitOff_of_not_mem p kept ht, ← Fin.ext_iff]
      refine ⟨fun heq => ⟨heq, fun hsp => ?_⟩, fun hst => hst.1⟩
      exact ⟨fun hc => absurd ((h.moved s).2 ⟨hsp, hc⟩) hs,
        fun hc => absurd ((h.moved t).2 ⟨heq ▸ hsp, hc⟩) ht⟩

end Partition

end LineScan
