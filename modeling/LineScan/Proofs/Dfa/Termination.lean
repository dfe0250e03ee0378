/-
  LineScan.Proofs.Dfa.Termination
  ───────────────────────────────
  **REFINEMENT ENDS WITHOUT A BOUND.**

  A sweep walks a list of blocks that grows while it is walked, and sweeps are
  repeated for as long as one of them splits a block.  Neither loop counts
  anything: `Sweeps` and `Settles` are the two loops as they stand, with a
  derivation for every run that ends.

  What ends both of them is the number of blocks.  A split adds one
  (`valid_of_refine?`), both parts of it hold a state, and so there are never
  more blocks than states:

      a sweep             has `size - k` blocks at most before it from block `k`
      a run of sweeps     has `size - count` splits at most before it

  The bounds that `sweep` and `refinement` are computed with are therefore
  never reached: they return what the loops return, and nothing else is
  returned by the loops (`sweeps_iff`, `settles_iff`).
-/
import LineScan.Proofs.Dfa.Refinement
import Mathlib.Algebra.Ring.Nat

namespace LineScan

namespace Dfa

variable {d : Dfa} {P P' : Partition d.size} {k : Nat} {splits : List (Split d.size)}
  {passes : List (Pass d.size)}

/-! ## §1. The two loops. -/

/-- **Refining block after block from block `k`**, up to the end of a list of
blocks that grows on the way. -/
inductive Sweeps (d : Dfa) :
    Partition d.size → Nat → Partition d.size → List (Split d.size) → Prop
  /-- The end of the list is reached. -/
  | ends {P : Partition d.size} {k : Nat} (hk : P.count ≤ k) : Sweeps d P k P []
  /-- All members of the block stay together. -/
  | stays {P P' : Partition d.size} {k : Nat} {splits : List (Split d.size)}
      (hk : k < P.count) (hrefine : d.refine? P ⟨k, hk⟩ = none)
      (rest : Sweeps d P (k + 1) P' splits) : Sweeps d P k P' splits
  /-- The block is split, and the sweep goes on over one block more. -/
  | splits {P P₁ P' : Partition d.size} {k : Nat} {split : Split d.size}
      {splits : List (Split d.size)}
      (hk : k < P.count) (hrefine : d.refine? P ⟨k, hk⟩ = some (P₁, split))
      (rest : Sweeps d P₁ (k + 1) P' splits) : Sweeps d P k P' (split :: splits)

/-- **Sweeping until a sweep splits nothing.** -/
inductive Settles (d : Dfa) : Partition d.size → Partition d.size → List (Pass d.size) → Prop
  /-- The sweep splits nothing and is the last one. -/
  | last {P P' : Partition d.size} (sweep : Sweeps d P 0 P' []) :
      Settles d P P' [⟨[], P'.count⟩]
  /-- The sweep splits something, and another one follows. -/
  | again {P P₁ P' : Partition d.size} {splits : List (Split d.size)}
      {passes : List (Pass d.size)} (sweep : Sweeps d P 0 P₁ splits) (hsplits : splits ≠ [])
      (rest : Settles d P₁ P' passes) : Settles d P P' (⟨splits, P₁.count⟩ :: passes)

/-- The number of splits in all the sweeps of a run. -/
def totalSplits (passes : List (Pass d.size)) : Nat :=
  (passes.map fun pass => pass.splits.length).sum

theorem totalSplits_cons (splits : List (Split d.size)) (count : Nat)
    (passes : List (Pass d.size)) :
    totalSplits (⟨splits, count⟩ :: passes) = splits.length + totalSplits passes := rfl

/-! ## §2. A sweep. -/

/-- A split adds a block to a valid partition, and leaves a valid one. -/
theorem valid_of_refine? (hP : P.Valid) {p : Fin P.count} {split : Split d.size}
    (h : d.refine? P p = some (P', split)) : P'.Valid ∧ P'.count = P.count + 1 := by
  obtain ⟨moved, he, hsplit⟩ := exists_splitBy_of_refine? hP h
  subst he
  exact ⟨hsplit.valid hP, rfl⟩

/-- A sweep adds a block for every split. -/
theorem Sweeps.count_eq (h : d.Sweeps P k P' splits) (hP : P.Valid) :
    P'.Valid ∧ P'.count = P.count + splits.length := by
  induction h with
  | ends hk => exact ⟨hP, rfl⟩
  | stays hk hrefine rest ih => exact ih hP
  | splits hk hrefine rest ih =>
      obtain ⟨hP₁, hcount⟩ := valid_of_refine? hP hrefine
      obtain ⟨hP', hrest⟩ := ih hP₁
      refine ⟨hP', ?_⟩
      rw [hrest, hcount, List.length_cons]
      omega

/-- **A sweep ends** with what is found over any run of numbers that reaches
the number of states. -/
theorem sweeps_sweepOver (hP : P.Valid) (k n : Nat) (hn : d.size ≤ k + n) :
    d.Sweeps P k (d.sweepOver P (List.range' k n)).1 (d.sweepOver P (List.range' k n)).2 := by
  -- the numbers left and the blocks passed outnumber the blocks there can be
  induction n generalizing P k with
  | zero => exact .ends (Nat.le_trans hP.count_le hn)
  | succ n ih =>
      rw [List.range'_succ]
      unfold sweepOver
      by_cases hk : k < P.count
      · rw [dif_pos hk]
        cases hrefine : d.refine? P ⟨k, hk⟩ with
        | none => exact .stays hk hrefine (ih hP (k + 1) (by omega))
        | some result =>
            obtain ⟨P₁, split⟩ := result
            exact .splits hk hrefine
              (ih (valid_of_refine? hP hrefine).1 (k + 1) (by omega))
      · rw [dif_neg hk]
        exact .ends (Nat.not_lt.1 hk)

/-- A sweep that ends has gone through as many numbers as there are states at
most. -/
theorem Sweeps.sweepOver_eq (h : d.Sweeps P k P' splits) (hP : P.Valid) (n : Nat)
    (hn : d.size ≤ k + n) : d.sweepOver P (List.range' k n) = (P', splits) := by
  induction h generalizing n with
  | @ends P k hk =>
      cases n with
      | zero => rfl
      | succ n =>
          rw [List.range'_succ, sweepOver, dif_neg (Nat.not_lt.2 hk)]
  | @stays P P' k splits hk hrefine rest ih =>
      -- a block that exists has a number below the number of states
      have hlt := Nat.lt_of_lt_of_le hk hP.count_le
      obtain ⟨m, rfl⟩ : ∃ m, n = m + 1 := ⟨n - 1, by omega⟩
      rw [List.range'_succ, sweepOver, dif_pos hk, hrefine]
      exact ih hP m (by omega)
  | @splits P P₁ P' k split splits hk hrefine rest ih =>
      have hlt := Nat.lt_of_lt_of_le hk hP.count_le
      obtain ⟨m, rfl⟩ : ∃ m, n = m + 1 := ⟨n - 1, by omega⟩
      rw [List.range'_succ, sweepOver, dif_pos hk, hrefine]
      show ((d.sweepOver P₁ (List.range' (k + 1) m)).1,
        split :: (d.sweepOver P₁ (List.range' (k + 1) m)).2) = (P', split :: splits)
      rw [ih (valid_of_refine? hP hrefine).1 m (by omega)]

/-- **The loop over the growing list returns what `sweep` returns.** -/
theorem sweeps_iff (hP : P.Valid) : d.Sweeps P 0 P' splits ↔ d.sweep P = (P', splits) := by
  unfold sweep
  rw [List.range_eq_range']
  constructor
  · intro h
    exact h.sweepOver_eq hP d.size (by omega)
  · intro h
    have hends := sweeps_sweepOver hP 0 d.size (by omega)
    rwa [h] at hends

theorem sweeps_sweep (hP : P.Valid) : d.Sweeps P 0 (d.sweep P).1 (d.sweep P).2 :=
  (sweeps_iff hP).2 rfl

/-! ## §3. Sweep after sweep. -/

theorem sweeps_succ (P : Partition d.size) (limit : Nat) :
    d.sweeps P (limit + 1) =
      if (d.sweep P).2 = [] then ((d.sweep P).1, [⟨[], (d.sweep P).1.count⟩])
      else ((d.sweeps (d.sweep P).1 limit).1,
        ⟨(d.sweep P).2, (d.sweep P).1.count⟩ :: (d.sweeps (d.sweep P).1 limit).2) := by
  conv_lhs => unfold sweeps
  by_cases h : (d.sweep P).2 = []
  · simp only [h, List.isEmpty_nil, if_true]
  · have hempty : (d.sweep P).2.isEmpty = false := by rwa [← Bool.not_eq_true, List.isEmpty_iff]
    simp only [h, hempty, if_false, Bool.false_eq_true]

/-- **The run of sweeps ends** before any limit that, with the blocks there
are, outnumbers the states. -/
theorem settles_sweeps (hP : P.Valid) (limit : Nat) (hlimit : d.size < P.count + limit) :
    d.Settles P (d.sweeps P limit).1 (d.sweeps P limit).2 := by
  induction limit generalizing P with
  | zero => exact absurd hP.count_le (by omega)
  | succ limit ih =>
      have hsweep := sweeps_sweep hP
      obtain ⟨hP₁, hcount⟩ := hsweep.count_eq hP
      rw [sweeps_succ]
      by_cases hsplits : (d.sweep P).2 = []
      · rw [if_pos hsplits]
        rw [hsplits] at hsweep
        exact .last hsweep
      · rw [if_neg hsplits]
        -- the sweep has added a block for the one taken off the limit
        have hpos := List.length_pos_iff.2 hsplits
        exact .again hsweep hsplits (ih hP₁ (by omega))

/-- A run of sweeps that ends is the one that is computed. -/
theorem Settles.sweeps_eq (h : d.Settles P P' passes) (hP : P.Valid) (limit : Nat)
    (hlimit : d.size < P.count + limit) : d.sweeps P limit = (P', passes) := by
  induction h generalizing limit with
  | @last P P' sweep =>
      have hle := hP.count_le
      obtain ⟨m, rfl⟩ : ∃ m, limit = m + 1 := ⟨limit - 1, by omega⟩
      rw [sweeps_succ, (sweeps_iff hP).1 sweep, if_pos rfl]
  | @again P P₁ P' splits passes sweep hsplits rest ih =>
      have hle := hP.count_le
      have hpos := List.length_pos_iff.2 hsplits
      obtain ⟨hP₁, hcount⟩ := sweep.count_eq hP
      obtain ⟨m, rfl⟩ : ∃ m, limit = m + 1 := ⟨limit - 1, by omega⟩
      rw [sweeps_succ, (sweeps_iff hP).1 sweep, if_neg hsplits]
      rw [ih hP₁ m (by omega)]

/-- **The splits of a run are the blocks it adds.** -/
theorem Settles.count_eq (h : d.Settles P P' passes) (hP : P.Valid) :
    P'.Valid ∧ P'.count = P.count + totalSplits passes := by
  induction h with
  | last sweep => exact sweep.count_eq hP
  | again sweep hsplits rest ih =>
      obtain ⟨hP₁, hcount⟩ := sweep.count_eq hP
      obtain ⟨hP', hrest⟩ := ih hP₁
      exact ⟨hP', by rw [hrest, hcount, totalSplits_cons, Nat.add_assoc]⟩

/-- The last sweep of a run splits nothing; every one before it splits a
block. -/
theorem Settles.exists_last (h : d.Settles P P' passes) :
    ∃ before, passes = before ++ [⟨[], P'.count⟩] ∧ ∀ pass ∈ before, pass.splits ≠ [] := by
  induction h with
  | last sweep => exact ⟨[], rfl, by simp⟩
  | again sweep hsplits rest ih =>
      obtain ⟨before, he, hbefore⟩ := ih
      refine ⟨_ :: before, by rw [he]; rfl, fun pass hpass => ?_⟩
      rcases List.mem_cons.1 hpass with h | h
      · rw [h]
        exact hsplits
      · exact hbefore pass h

/-- There is at most one sweep more than there are splits. -/
theorem Settles.length_le (h : d.Settles P P' passes) :
    passes.length ≤ totalSplits passes + 1 := by
  induction h with
  | last sweep => exact Nat.le_refl _
  | again sweep hsplits rest ih =>
      have hpos := List.length_pos_iff.2 hsplits
      rw [totalSplits_cons, List.length_cons]
      omega

/-! ## §4. The run from the partition by acceptance. -/

/-- **Sweeping from the partition by acceptance ends with the final
partition**, and with no other. -/
theorem settles_iff :
    d.Settles d.initialPartition P passes ↔ d.refinement = (P, passes) := by
  have hvalid := valid_initialPartition d
  have hpos := Fin.pos (d.initialPartition.blockOf d.start)
  constructor
  · intro h
    exact h.sweeps_eq hvalid d.size (by omega)
  · intro h
    have hends := settles_sweeps hvalid d.size (by omega)
    rwa [show d.sweeps d.initialPartition d.size = (P, passes) from h] at hends

/-- **How a run of sweeps ends**, and what it costs. -/
structure Terminates (d : Dfa) (final : Partition d.size) (passes : List (Pass d.size)) :
    Prop where
  /-- The loop over the blocks ends, wherever it starts, and returns what
  `sweep` returns. -/
  sweep_ends : ∀ P : Partition d.size, P.Valid →
    ∀ P' splits, d.Sweeps P 0 P' splits ↔ d.sweep P = (P', splits)
  /-- The loop over the sweeps ends, in this partition only. -/
  run_ends : ∀ P passes', d.Settles d.initialPartition P passes' ↔ P = final ∧ passes' = passes
  /-- All splits together are the blocks that the initial ones have grown by. -/
  total : d.initialBlocks.length + totalSplits passes = final.count
  /-- There are no more blocks than states. -/
  count_le : final.count ≤ d.size
  /-- There are no more splits than states beyond the initial blocks. -/
  total_le : totalSplits passes ≤ d.size - d.initialBlocks.length
  /-- The last sweep splits nothing, every one before it splits a block. -/
  last : ∃ before, passes = before ++ [⟨[], final.count⟩] ∧ ∀ pass ∈ before, pass.splits ≠ []
  /-- There is at most one sweep more than there are splits. -/
  length_le : passes.length ≤ totalSplits passes + 1

/-- **Refinement ends for every automaton**: each sweep does, although it adds
to the list that it walks, and so do the sweeps, after at most as many splits
as there are states beyond the initial blocks. -/
theorem refinement_terminates (d : Dfa) : d.Terminates d.refinement.1 d.refinement.2 := by
  have hsettles : d.Settles d.initialPartition d.refinement.1 d.refinement.2 := settles_iff.2 rfl
  obtain ⟨hvalid, hcount⟩ := hsettles.count_eq (valid_initialPartition d)
  have hinitial : d.initialPartition.count = d.initialBlocks.length := rfl
  have hle := hvalid.count_le
  exact {
    sweep_ends := fun P hP P' splits => sweeps_iff hP
    run_ends := fun P passes' => by rw [settles_iff, Prod.ext_iff, eq_comm, @eq_comm _ passes']
    total := hcount.symm
    count_le := hle
    total_le := by omega
    last := hsettles.exists_last
    length_le := hsettles.length_le }

end Dfa

end LineScan
