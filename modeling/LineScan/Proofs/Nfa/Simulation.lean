/-
  LineScan.Proofs.Nfa.Simulation
  ──────────────────────────────
  **SETS OF NODES FOLLOW ALL RUNS AT ONCE.**

  `close` collects what runs reach without consuming anything: its search
  keeps every node that it has found closed up to the nodes that are still
  to be looked at.  From that and from the meaning of `step`, a set that has
  consumed a word holds exactly the nodes that runs over the word reach, and
  it dies exactly when no run is left:

      accepts w  ↔  some path from the start to a terminal node consumes w
-/
import LineScan.Proofs.Nfa.Path

namespace LineScan

namespace Nfa

variable (nfa : Nfa)

/-- The nodes of an automaton, which has one for every reference. -/
def graph : Graph (Fin nfa.size) := fun i => some (nfa.node i)

variable {nfa}

/-! ## §1. The closure. -/

variable {found s t : nfa.NodeSet} {pending : List (Fin nfa.size)} {i j : Fin nfa.size}

theorem contains_closeFrom_of_found (h : found.contains j = true) :
    (nfa.closeFrom found pending).contains j = true := by
  fun_induction closeFrom nfa found pending with
  | case1 => exact h
  | case2 found i rest _ ih => exact ih h
  | case3 found i rest _ ih => exact ih (by simp [BitSet.contains_insert, h])

theorem contains_closeFrom_of_pending (h : j ∈ pending) :
    (nfa.closeFrom found pending).contains j = true := by
  -- case 2 skips a node that has been found, case 3 finds one
  fun_induction closeFrom nfa found pending with
  | case1 => cases h
  | case2 found i rest hi ih =>
      rcases List.mem_cons.1 h with rfl | h
      · exact contains_closeFrom_of_found hi
      · exact ih h
  | case3 found i rest _ ih =>
      rcases List.mem_cons.1 h with rfl | h
      · exact contains_closeFrom_of_found (by simp [BitSet.contains_insert])
      · exact ih (List.mem_append_right _ h)

/-- The search adds nothing but what it reaches. -/
theorem path_of_contains_closeFrom (h : (nfa.closeFrom found pending).contains j = true) :
    found.contains j = true ∨ ∃ i ∈ pending, Path nfa.graph i [] j := by
  fun_induction closeFrom nfa found pending with
  | case1 => exact .inl h
  | case2 found i rest _ ih =>
      rcases ih h with h | ⟨k, hk, hp⟩
      · exact .inl h
      · exact .inr ⟨k, List.mem_cons_of_mem _ hk, hp⟩
  | case3 found i rest _ ih =>
      rcases ih h with h | ⟨k, hk, hp⟩
      · simp only [BitSet.contains_insert, Bool.or_eq_true, decide_eq_true_eq] at h
        rcases h with h | h
        · exact .inl h
        · exact .inr ⟨i, List.mem_cons_self, Fin.ext h ▸ .nil _⟩
      · -- a target of the node found now, or a node that was waiting before
        rcases List.mem_append.1 hk with hk | hk
        · exact .inr ⟨i, List.mem_cons_self, .epsilon rfl hk hp⟩
        · exact .inr ⟨k, List.mem_cons_of_mem _ hk, hp⟩

/-- The search leaves nothing out: when the nodes found are closed up to the
nodes still to be looked at, the result is closed. -/
theorem closeFrom_closed
    (hinv : ∀ i, found.contains i.val = true → ∀ j ∈ (nfa.node i).epsilonTargets,
      found.contains j.val = true ∨ j ∈ pending)
    (hi : (nfa.closeFrom found pending).contains i = true)
    (hj : j ∈ (nfa.node i).epsilonTargets) :
    (nfa.closeFrom found pending).contains j = true := by
  fun_induction closeFrom nfa found pending with
  | case1 =>
      rcases hinv i hi j hj with h | h
      · exact h
      · cases h
  | case2 found k rest hk ih =>
      refine ih ?_ hi
      intro i' hi' j' hj'
      rcases hinv i' hi' j' hj' with h | h
      · exact .inl h
      · -- the node skipped here had been found before
        rcases List.mem_cons.1 h with rfl | h
        · exact .inl hk
        · exact .inr h
  | case3 found k rest _ ih =>
      refine ih ?_ hi
      intro i' hi' j' hj'
      simp only [BitSet.contains_insert, Bool.or_eq_true, decide_eq_true_eq] at hi' ⊢
      rcases hi' with hi' | hi'
      · rcases hinv i' hi' j' hj' with h | h
        · exact .inl (.inl h)
        · rcases List.mem_cons.1 h with rfl | h
          · exact .inl (.inr rfl)
          · exact .inr (List.mem_append_right _ h)
      · -- the targets of the node found now are still to be looked at
        rw [Fin.ext hi'] at hj'
        exact .inr (List.mem_append_left _ hj')

/-- **The closure of a set holds exactly what runs from the set reach without
consuming anything.** -/
theorem contains_close_iff :
    (nfa.close s).contains j = true ↔
      ∃ i : Fin nfa.size, s.contains i = true ∧ Path nfa.graph i [] j := by
  constructor
  · intro h
    rcases path_of_contains_closeFrom h with h | ⟨i, hi, hp⟩
    · simp at h
    · exact ⟨i, BitSet.mem_members.1 hi, hp⟩
  · rintro ⟨i, hi, hp⟩
    have hstart : (nfa.close s).contains i = true :=
      contains_closeFrom_of_pending (BitSet.mem_members.2 hi)
    clear hi
    -- the induction is on the path; its word stays empty
    generalize hw : ([] : Word) = w at hp
    induction hp with
    | nil => exact hstart
    | epsilon hn hj _ ih =>
        cases hn
        refine ih (closeFrom_closed ?_ hstart hj) hw
        intro i' hi'
        simp at hi'
    | byte => cases hw

/-- A set from which no run escapes without consuming something. -/
def IsClosed (s : nfa.NodeSet) : Prop :=
  ∀ i j : Fin nfa.size, s.contains i = true → Path nfa.graph i [] j → s.contains j = true

theorem isClosed_close (s : nfa.NodeSet) : IsClosed (nfa.close s) := by
  intro i j hi hp
  obtain ⟨k, hk, hp'⟩ := contains_close_iff.1 hi
  exact contains_close_iff.2 ⟨k, hk, hp'.append hp⟩

theorem isClosed_initial : IsClosed nfa.initial := isClosed_close _

/-! ## §2. One symbol. -/

theorem step_eq_none_iff {b : UInt8} :
    nfa.step s b = none ↔
      ∀ i : Fin nfa.size, s.contains i = true → (nfa.node i).byteTarget? b = none := by
  unfold step
  split
  · next h =>
      simp only [true_iff]
      intro i hi
      exact List.filterMap_eq_nil_iff.1 h i (BitSet.mem_members.2 hi)
  · next h =>
      simp only [reduceCtorEq, false_iff]
      intro hnone
      apply h
      rw [List.filterMap_eq_nil_iff]
      exact fun i hi => hnone i (BitSet.mem_members.1 hi)

/-- **A node is in the set after a symbol and a closure exactly when a run
from the set over the symbol reaches it.** -/
theorem contains_close_step_iff {b : UInt8} (hs : IsClosed s) (hb : b.toNat < alphabetSize) :
    (∃ t, nfa.step s b = some t ∧ (nfa.close t).contains j = true) ↔
      ∃ i : Fin nfa.size, s.contains i = true ∧ Path nfa.graph i [b] j := by
  constructor
  · rintro ⟨t, ht, hj⟩
    obtain ⟨k, hk, hp⟩ := contains_close_iff.1 hj
    obtain ⟨i, hi, htarget⟩ := (nfa.contains_of_step ht k).1 hk
    exact ⟨i, hi, .byte rfl hb htarget hp⟩
  · rintro ⟨i, hi, hp⟩
    obtain ⟨k, n, l, hk, hn, _, hl, hp'⟩ := Path.cons_iff.1 hp
    cases hn
    -- the set is closed, so the node that consumes the symbol is in it
    have hks : s.contains k = true := hs i k hi hk
    cases ht : nfa.step s b with
    | none =>
        rw [step_eq_none_iff.1 ht k hks] at hl
        cases hl
    | some t =>
        refine ⟨t, rfl, contains_close_iff.2 ⟨l, ?_, hp'⟩⟩
        exact (nfa.contains_of_step ht l).2 ⟨k, hks, hl⟩

/-! ## §3. Words. -/

/-- **A set that has consumed a word holds exactly the nodes that runs over
the word reach.** -/
theorem contains_runFrom_iff (hs : IsClosed s) (w : Word) :
    (∃ t, nfa.runFrom s w = some t ∧ t.contains j = true) ↔
      ∃ i : Fin nfa.size, s.contains i = true ∧ Path nfa.graph i w j := by
  induction w generalizing s with
  | nil =>
      simp only [runFrom, Option.some.injEq, exists_eq_left']
      exact ⟨fun h => ⟨j, h, .nil j⟩, fun ⟨i, hi, hp⟩ => hs i j hi hp⟩
  | cons b w ih =>
      by_cases hb : b.toNat < alphabetSize
      · have hrun : nfa.runFrom s (b :: w) =
            (nfa.step s b).bind fun moved => nfa.runFrom (nfa.close moved) w := by
          rw [runFrom, if_pos hb]
          cases nfa.step s b <;> rfl
        rw [hrun]
        simp only [Option.bind_eq_some_iff]
        constructor
        · rintro ⟨t, ⟨m, hm, ht⟩, hj⟩
          obtain ⟨l, hl, hp⟩ := (ih (isClosed_close m)).1 ⟨t, ht, hj⟩
          obtain ⟨i, hi, hp'⟩ := (contains_close_step_iff hs hb).1 ⟨m, hm, hl⟩
          exact ⟨i, hi, hp'.append hp⟩
        · rintro ⟨i, hi, hp⟩
          -- the run is cut behind the node that the symbol leads to
          obtain ⟨k, n, l, hk, hn, _, hl, hp'⟩ := Path.cons_iff.1 hp
          obtain ⟨m, hm, hlm⟩ := (contains_close_step_iff hs hb).2
            ⟨i, hi, Path.cons_iff.2 ⟨k, n, l, hk, hn, hb, hl, .nil l⟩⟩
          obtain ⟨t, ht, hj⟩ := (ih (isClosed_close m)).2 ⟨l, hlm, hp'⟩
          exact ⟨t, ⟨m, hm, ht⟩, hj⟩
      · -- a byte outside the alphabet ends the simulation, and no run consumes it
        rw [runFrom, if_neg hb]
        constructor
        · rintro ⟨t, ht, _⟩
          cases ht
        · rintro ⟨i, _, hp⟩
          exact absurd (hp.toNat_lt b List.mem_cons_self) hb

theorem contains_initial_iff :
    nfa.initial.contains j = true ↔ Path nfa.graph nfa.start [] j := by
  rw [initial, contains_close_iff]
  constructor
  · rintro ⟨i, hi, hp⟩
    have : i = nfa.start := by
      simpa [BitSet.contains_ofList, Fin.ext_iff] using hi
    exact this ▸ hp
  · intro hp
    exact ⟨nfa.start, by simp [BitSet.contains_ofList], hp⟩

/-- **A word is accepted exactly when a run over it leads from the start to a
terminal node.** -/
theorem accepts_iff_path (w : Word) :
    nfa.accepts w = true ↔
      ∃ t, Path nfa.graph nfa.start w t ∧ (nfa.node t).isTerminal = true := by
  have hreach : ∀ j, (∃ t, nfa.runFrom nfa.initial w = some t ∧ t.contains j.val = true) ↔
      Path nfa.graph nfa.start w j := by
    intro j
    rw [contains_runFrom_iff isClosed_initial]
    constructor
    · rintro ⟨i, hi, hp⟩
      exact (contains_initial_iff.1 hi).append hp
    · intro hp
      exact ⟨nfa.start, contains_initial_iff.2 (.nil _), hp⟩
  have haccepts : nfa.accepts w = true ↔
      ∃ t, nfa.runFrom nfa.initial w = some t ∧ nfa.isAccepting t = true := by
    unfold accepts
    cases nfa.runFrom nfa.initial w <;> simp
  rw [haccepts]
  constructor
  · rintro ⟨t, ht, hacc⟩
    obtain ⟨j, hj, hterm⟩ := nfa.isAccepting_iff.1 hacc
    exact ⟨j, (hreach j).1 ⟨t, ht, hj⟩, hterm⟩
  · rintro ⟨j, hp, hterm⟩
    obtain ⟨t, ht, hj⟩ := (hreach j).2 hp
    exact ⟨t, ht, nfa.isAccepting_iff.2 ⟨j, hj, hterm⟩⟩

end Nfa

end LineScan
