/-
  LineScan.Proofs.Dfa.Refinement
  ──────────────────────────────
  **REFINEMENT ENDS AT THE COARSEST PARTITION.**

  Two facts meet at the end.  From above: no step parts states that cannot be
  distinguished, since what parts them is a symbol that leads into different
  blocks (`Justified`).  From below: a sweep that splits nothing leaves a
  partition whose blocks no symbol parts (`Stable`), and acceptance was parted
  to begin with, so states of one block have the same outcomes.

  Every sweep but the last adds a block, and there are no more blocks than
  states.  The limit on the number of sweeps is therefore never reached.
-/
import LineScan.Proofs.Dfa.Outcome
import LineScan.Proofs.Dfa.Partition

namespace LineScan

namespace Dfa

variable {d : Dfa} {P P' : Partition d.size} {s t : Fin d.size}

/-! ## §1. What parts two states. -/

/-- No symbol parts two states exactly when every symbol leads from both into
the same block, or from both nowhere. -/
theorem distinguishes_eq_false_iff :
    d.distinguishes P s t = false ↔
      ∀ a : Symbol, (d.next s a.toByte).map P.blockOf = (d.next t a.toByte).map P.blockOf := by
  unfold distinguishes
  rw [List.any_eq_false]
  constructor
  · intro h a
    have ha := h a (mem_alphabet a)
    cases hs : d.next s a.toByte <;> cases ht : d.next t a.toByte <;> simp_all
  · intro h a _
    have ha := h a
    cases hs : d.next s a.toByte <;> cases ht : d.next t a.toByte <;> simp_all

/-- Comparing with a block's first member does not tell indistinguishable
states apart. -/
theorem Indistinguishable.distinguishes_eq (h : d.Indistinguishable s t)
    (hP : ∀ s t, d.Indistinguishable s t → P.blockOf s = P.blockOf t) (u : Fin d.size) :
    d.distinguishes P u s = d.distinguishes P u t := by
  have hmap : ∀ a : Symbol,
      (d.next s a.toByte).map P.blockOf = (d.next t a.toByte).map P.blockOf := by
    intro a
    rcases h.next a with ⟨hs, ht⟩ | ⟨s', t', hs, ht, hst⟩
    · rw [hs, ht]
    · rw [hs, ht, Option.map_some, Option.map_some, hP s' t' hst]
  rw [Bool.eq_iff_iff, ← Bool.not_eq_false, ← Bool.not_eq_false, distinguishes_eq_false_iff,
    distinguishes_eq_false_iff]
  simp only [hmap]

/-- **A partition that refinement may arrive at.** -/
structure Justified (d : Dfa) (P : Partition d.size) : Prop where
  /-- Blocks and numbers agree. -/
  valid : P.Valid
  /-- A block accepts or does not. -/
  accepting : ∀ s t, P.blockOf s = P.blockOf t → (d.state s).accepting = (d.state t).accepting
  /-- States that cannot be distinguished are together. -/
  together : ∀ s t, d.Indistinguishable s t → P.blockOf s = P.blockOf t

/-- No symbol parts the states of a block. -/
def Stable (d : Dfa) (P : Partition d.size) : Prop :=
  ∀ s t, P.blockOf s = P.blockOf t → ∀ a : Symbol,
    (d.next s a.toByte).map P.blockOf = (d.next t a.toByte).map P.blockOf

/-- **States of one block have the same outcomes** when no symbol parts the
states of a block. -/
theorem Justified.indistinguishable (hP : d.Justified P) (hstable : d.Stable P)
    (h : P.blockOf s = P.blockOf t) : d.Indistinguishable s t := by
  intro w
  induction w generalizing s t with
  | nil => exact congrArg some (hP.accepting s t h)
  | cons a w ih =>
      have ha := hstable s t h a
      rw [List.map_cons, outcome_cons, outcome_cons]
      cases hs : d.next s a.toByte with
      | none =>
          rw [hs, Option.map_none, eq_comm, Option.map_eq_none_iff] at ha
          rw [ha]
      | some s' =>
          rw [hs, Option.map_some, eq_comm, Option.map_eq_some_iff] at ha
          obtain ⟨t', ht, hst⟩ := ha
          rw [ht]
          exact ih hst.symm

/-! ## §2. One step. -/

/-- The members of a block that are parted from its first one. -/
def apart (d : Dfa) (P : Partition d.size) (p : Fin P.count) : List (Fin d.size) :=
  (P.block p).tail.filter (d.distinguishes P (P.block p).head)

/-- What is left of a block without them. -/
def kept (d : Dfa) (P : Partition d.size) (p : Fin P.count) : Block d.size :=
  ⟨(P.block p).head,
    (P.block p).tail.filter fun s => !d.distinguishes P (P.block p).head s⟩

theorem refine?_eq (p : Fin P.count) :
    d.refine? P p = (Block.ofList? (d.apart P p)).map fun moved =>
      (P.splitOff p (d.kept P p) moved, ⟨p, d.kept P p, P.count, moved⟩) := by
  unfold refine?
  simp only [List.partition_eq_filter_filter]
  rfl

theorem distinguishes_self (P : Partition d.size) (s : Fin d.size) :
    d.distinguishes P s s = false :=
  distinguishes_eq_false_iff.2 fun _ => rfl

theorem mem_apart_iff (hP : P.Valid) (p : Fin P.count) (s : Fin d.size) :
    s ∈ d.apart P p ↔ P.blockOf s = p ∧ d.distinguishes P (P.block p).head s = true := by
  rw [← hP, apart, List.mem_filter]
  constructor
  · intro h
    exact ⟨List.mem_cons_of_mem _ h.1, h.2⟩
  · intro h
    rcases List.mem_cons.1 h.1 with hs | hs
    · -- nothing parts the first member from itself
      rw [hs, distinguishes_self] at h
      exact absurd h.2 Bool.false_ne_true
    · exact ⟨hs, h.2⟩

theorem mem_kept_iff (hP : P.Valid) (p : Fin P.count) (s : Fin d.size) :
    s ∈ (d.kept P p).members ↔
      P.blockOf s = p ∧ ¬ d.distinguishes P (P.block p).head s = true := by
  rw [← hP]
  show s ∈ (P.block p).head :: List.filter _ _ ↔ s ∈ (P.block p).head :: _ ∧ _
  rw [List.mem_cons, List.mem_cons, List.mem_filter, Bool.not_eq_true', Bool.not_eq_true]
  constructor
  · intro h
    rcases h with h | h
    · exact ⟨.inl h, by rw [h, distinguishes_self]⟩
    · exact ⟨.inr h.1, h.2⟩
  · intro h
    rcases h.1 with hs | hs
    · exact .inl hs
    · exact .inr ⟨hs, h.2⟩

/-- A block that is not split holds no state that is parted from its first
one. -/
theorem distinguishes_of_refine?_eq_none (hP : P.Valid) {p : Fin P.count}
    (h : d.refine? P p = none) (hs : P.blockOf s = p) :
    d.distinguishes P (P.block p).head s = false := by
  rw [refine?_eq, Option.map_eq_none_iff] at h
  have hempty : d.apart P p = [] := by
    cases hapart : d.apart P p with
    | nil => rfl
    | cons t rest =>
        rw [hapart] at h
        cases h
  rw [← Bool.not_eq_true]
  intro hdist
  have hmem := (mem_apart_iff hP p s).2 ⟨hs, hdist⟩
  rw [hempty] at hmem
  cases hmem

/-- A block that is split is split by its first member. -/
theorem exists_splitBy_of_refine? (hP : P.Valid) {p : Fin P.count} {split : Split d.size}
    (h : d.refine? P p = some (P', split)) :
    ∃ moved, P' = P.splitOff p (d.kept P p) moved ∧
      P.SplitBy p (d.kept P p) moved
        fun s => d.distinguishes P (P.block p).head s = true := by
  rw [refine?_eq, Option.map_eq_some_iff] at h
  obtain ⟨moved, hmoved, he⟩ := h
  cases he
  refine ⟨moved, rfl, fun s => ?_, mem_kept_iff hP p⟩
  rw [Block.members_of_ofList? hmoved]
  exact mem_apart_iff hP p s

/-- **A split is justified**: it parts no states that cannot be
distinguished. -/
theorem Justified.refine? (hP : d.Justified P) {p : Fin P.count} {split : Split d.size}
    (h : d.refine? P p = some (P', split)) : d.Justified P' ∧ P'.count = P.count + 1 := by
  obtain ⟨moved, he, hsplit⟩ := exists_splitBy_of_refine? hP.valid h
  subst he
  refine ⟨⟨hsplit.valid hP.valid, ?_, ?_⟩, rfl⟩
  · intro s t hst
    exact hP.accepting s t ((hsplit.blockOf_eq_iff s t).1 hst).1
  · -- both are parted from the first member, or both are not
    intro s t hst
    refine (hsplit.blockOf_eq_iff s t).2 ⟨hP.together s t hst, fun _ => ?_⟩
    rw [hst.distinguishes_eq hP.together]

/-! ## §3. Sweeps. -/

/-- A sweep adds a block for every split. -/
theorem Justified.sweepOver (hP : d.Justified P) (l : List Nat) :
    d.Justified (d.sweepOver P l).1 ∧
      (d.sweepOver P l).1.count = P.count + (d.sweepOver P l).2.length := by
  induction l generalizing P with
  | nil => exact ⟨hP, rfl⟩
  | cons p rest ih =>
      unfold Dfa.sweepOver
      by_cases hp : p < P.count
      · rw [dif_pos hp]
        cases hrefine : d.refine? P ⟨p, hp⟩ with
        | none => exact ih hP
        | some result =>
            obtain ⟨P', split⟩ := result
            obtain ⟨hP', hcount⟩ := hP.refine? hrefine
            obtain ⟨hjust, hlen⟩ := ih hP'
            refine ⟨hjust, ?_⟩
            show (d.sweepOver P' rest).1.count = P.count + ((d.sweepOver P' rest).2.length + 1)
            rw [hlen, hcount]
            omega
      · rw [dif_neg hp]
        exact ⟨hP, rfl⟩

/-- A sweep without splits changes nothing, and has looked at every block
among its numbers. -/
theorem sweepOver_eq_self (k n : Nat) (h : (d.sweepOver P (List.range' k n)).2 = []) :
    (d.sweepOver P (List.range' k n)).1 = P ∧
      ∀ p : Fin P.count, k ≤ p.val → p.val < k + n → d.refine? P p = none := by
  induction n generalizing k with
  | zero => exact ⟨rfl, fun p hk hn => absurd hk (by omega)⟩
  | succ n ih =>
      rw [List.range'_succ] at h ⊢
      unfold sweepOver at h ⊢
      by_cases hp : k < P.count
      · rw [dif_pos hp] at h ⊢
        cases hrefine : d.refine? P ⟨k, hp⟩ with
        | none =>
            rw [hrefine] at h
            obtain ⟨hself, hrest⟩ := ih (k + 1) h
            refine ⟨hself, fun p hk hn => ?_⟩
            by_cases hpk : p.val = k
            · have : p = ⟨k, hp⟩ := Fin.ext hpk
              rw [this, hrefine]
            · exact hrest p (by omega) (by omega)
        | some result =>
            rw [hrefine] at h
            cases h
      · rw [dif_neg hp]
        exact ⟨rfl, fun p hk _ => absurd p.isLt (by omega)⟩

/-- **A sweep that splits nothing** leaves a stable partition as it is. -/
theorem stable_of_sweep (hP : P.Valid) (h : (d.sweep P).2 = []) :
    d.sweep P = (P, []) ∧ d.Stable P := by
  unfold sweep at h ⊢
  rw [List.range_eq_range'] at h ⊢
  obtain ⟨hself, hnone⟩ := sweepOver_eq_self 0 d.size h
  refine ⟨Prod.ext hself h, ?_⟩
  -- every state leads where the first one of its block leads
  have hhead : ∀ s : Fin d.size, ∀ a : Symbol,
      (d.next (P.block (P.blockOf s)).head a.toByte).map P.blockOf =
        (d.next s a.toByte).map P.blockOf := by
    intro s
    rw [← distinguishes_eq_false_iff]
    have hlt := Nat.lt_of_lt_of_le (P.blockOf s).isLt hP.count_le
    exact distinguishes_of_refine?_eq_none hP (hnone _ (Nat.zero_le _) (by omega)) rfl
  intro s t hst a
  rw [← hhead s, hst, hhead t]

/-- **The limit on sweeps is not reached**: some sweep splits nothing. -/
theorem Justified.sweeps (hP : d.Justified P) (limit : Nat) (hlimit : d.size < P.count + limit) :
    d.Justified (d.sweeps P limit).1 ∧
      d.sweep (d.sweeps P limit).1 = ((d.sweeps P limit).1, []) ∧
      d.Stable (d.sweeps P limit).1 := by
  -- the blocks and the sweeps left outnumber the states, and each split keeps it so
  induction limit generalizing P with
  | zero => exact absurd hP.valid.count_le (by omega)
  | succ limit ih =>
      unfold Dfa.sweeps
      obtain ⟨hP', hcount⟩ := hP.sweepOver (List.range d.size)
      by_cases hsplits : (d.sweep P).2 = []
      · obtain ⟨hself, hstable⟩ := stable_of_sweep hP.valid hsplits
        rw [hself]
        exact ⟨hP, hself, hstable⟩
      · have hempty : (d.sweep P).2.isEmpty = false := by
          rw [Bool.eq_false_iff]
          exact fun h => hsplits (List.isEmpty_iff.1 h)
        have hpos := List.length_pos_iff.2 hsplits
        have hrest := ih hP' (by
          rw [hcount]
          change 0 < (d.sweepOver P (List.range d.size)).2.length at hpos
          omega)
        simp only [hempty]
        exact hrest

/-! ## §4. The final partition. -/

theorem mem_members_of_initialBlocks {b : Block d.size} (hb : b ∈ d.initialBlocks)
    (hs : s ∈ b.members) :
    t ∈ b.members ↔ (d.state t).accepting = (d.state s).accepting := by
  obtain ⟨l, hl, hbl⟩ := List.mem_filterMap.1 hb
  rw [Block.members_of_ofList? hbl] at hs ⊢
  rcases List.mem_cons.1 hl with hl | hl
  · subst hl
    simp only [acceptingStates, List.mem_filter, List.mem_finRange, true_and] at hs ⊢
    rw [hs]
  · rw [List.mem_singleton] at hl
    subst hl
    simp only [rejectingStates, List.mem_filter, List.mem_finRange, true_and,
      Bool.not_eq_true'] at hs ⊢
    rw [hs]

/-- No state is in both initial blocks. -/
theorem disjoint_initialBlocks (d : Dfa) :
    d.initialBlocks.Pairwise fun b b' => ∀ s ∈ b.members, s ∉ b'.members := by
  refine List.pairwise_filterMap.2 (List.pairwise_pair.2 ?_)
  intro b hb b' hb' s hs hs'
  rw [Block.members_of_ofList? hb] at hs
  rw [Block.members_of_ofList? hb'] at hs'
  simp only [acceptingStates, rejectingStates, List.mem_filter, List.mem_finRange, true_and,
    Bool.not_eq_true'] at hs hs'
  rw [hs] at hs'
  cases hs'

theorem valid_initialPartition (d : Dfa) : d.initialPartition.Valid :=
  Partition.valid_ofBlocks _ d.disjoint_initialBlocks

/-- The initial blocks part the states that accept from the others. -/
theorem blockOf_initialPartition_eq_iff :
    d.initialPartition.blockOf s = d.initialPartition.blockOf t ↔
      (d.state s).accepting = (d.state t).accepting := by
  have hvalid := valid_initialPartition d
  have hblock : d.initialPartition.block (d.initialPartition.blockOf t) ∈ d.initialBlocks :=
    List.get_mem d.initialBlocks _
  have ht := (hvalid _ t).2 rfl
  rw [← hvalid, mem_members_of_initialBlocks hblock ht]

theorem justified_initialPartition (d : Dfa) : d.Justified d.initialPartition where
  valid := valid_initialPartition d
  accepting _ _ h := blockOf_initialPartition_eq_iff.1 h
  together _ _ h := blockOf_initialPartition_eq_iff.2 h.accepting_eq

/-- **The final partition** is justified, and sweeping once more splits
nothing. -/
theorem refinement_spec (d : Dfa) :
    d.Justified d.refinement.1 ∧ d.sweep d.refinement.1 = (d.refinement.1, []) ∧
      d.Stable d.refinement.1 := by
  have hpos := Fin.pos (d.initialPartition.blockOf d.start)
  exact (justified_initialPartition d).sweeps d.size (by omega)

theorem blockOf_refinement_eq_iff :
    d.refinement.1.blockOf s = d.refinement.1.blockOf t ↔ d.Indistinguishable s t := by
  obtain ⟨hjust, _, hstable⟩ := d.refinement_spec
  exact ⟨fun h => hjust.indistinguishable hstable h, fun h => hjust.together s t h⟩

end Dfa

end LineScan
