/-
  LineScan.Proofs.Dfa.Quotient
  ────────────────────────────
  **MERGING STATES KEEPS WHAT CAN BE SEEN OF THEM.**

  Each state is merged into the one that its block becomes
  (`Dfa.mergedInto`).  When no symbol parts the states of a block, it does not
  matter that the first member lends its transitions: the map into the
  quotient follows every byte and keeps acceptance.  It keeps the start too,
  because the block with the smallest state comes first.

  Which groups the transitions are in matters only as far as no byte may be
  in two of them (`Dfa.Separate`).  The deterministic automaton of an
  automaton is built that way, and merging keeps it.
-/
import LineScan.Proofs.Dfa.Refinement
import LineScan.Proofs.Dfa.Subset
import Mathlib.Data.Fintype.EquivFin

namespace LineScan

/-! ## §1. The smallest member of a block. -/

namespace Block

variable {size : Nat}

theorem foldl_min_le (l : List (Fin size)) (k : Nat) :
    l.foldl (fun k s => min k s.val) k ≤ k ∧
      ∀ s ∈ l, l.foldl (fun k s => min k s.val) k ≤ s.val := by
  induction l generalizing k with
  | nil => exact ⟨Nat.le_refl k, fun s hs => by cases hs⟩
  | cons t l ih =>
      rw [List.foldl_cons]
      obtain ⟨hk, hl⟩ := ih (min k t.val)
      refine ⟨by omega, fun s hs => ?_⟩
      rcases List.mem_cons.1 hs with hs | hs
      · subst hs
        omega
      · exact hl s hs

theorem foldl_min_eq (l : List (Fin size)) (k : Nat) :
    l.foldl (fun k s => min k s.val) k = k ∨
      ∃ s ∈ l, s.val = l.foldl (fun k s => min k s.val) k := by
  induction l generalizing k with
  | nil => exact .inl rfl
  | cons t l ih =>
      rw [List.foldl_cons]
      rcases ih (min k t.val) with h | ⟨s, hs, h⟩
      · rw [h]
        rcases Nat.le_total k t.val with hle | hle
        · exact .inl (Nat.min_eq_left hle)
        · exact .inr ⟨t, List.mem_cons_self, (Nat.min_eq_right hle).symm⟩
      · exact .inr ⟨s, List.mem_cons_of_mem _ hs, h⟩

theorem least_le {b : Block size} {s : Fin size} (hs : s ∈ b.members) : b.least ≤ s.val := by
  obtain ⟨hhead, htail⟩ := foldl_min_le b.tail b.head.val
  rcases List.mem_cons.1 hs with hs | hs
  · rw [hs]
    exact hhead
  · exact htail s hs

theorem exists_eq_least (b : Block size) : ∃ s ∈ b.members, s.val = b.least := by
  rcases foldl_min_eq b.tail b.head.val with h | ⟨s, hs, h⟩
  · exact ⟨b.head, List.mem_cons_self, h.symm⟩
  · exact ⟨s, List.mem_cons_of_mem _ hs, h⟩

end Block

/-! ## §2. The order of the blocks. -/

namespace Partition

variable {size : Nat} {P : Partition size}

/-- The position of a block in the quotient. -/
def position (P : Partition size) : Fin P.count → Fin P.count :=
  (P.positions P.order P.length_order P.mem_order).get

theorem val_position (P : Partition size) (p : Fin P.count) :
    (P.position p).val = P.order.idxOf p := by
  have h : P.position p = _ := Vector.getElem_ofFn p.isLt
  rw [h]

/-- The block at the position of a block is that block. -/
theorem order_get_position (P : Partition size) (p : Fin P.count) :
    P.order.get ((P.position p).cast P.length_order.symm) = p := by
  simp only [List.get_eq_getElem, Fin.val_cast, val_position]
  exact List.getElem_idxOf _

theorem position_injective (P : Partition size) : Function.Injective P.position := by
  intro p q h
  rw [← P.order_get_position p, h, P.order_get_position]

theorem position_surjective (P : Partition size) : Function.Surjective P.position :=
  Finite.surjective_of_injective P.position_injective

/-- The blocks are in the order of their smallest members. -/
theorem pairwise_order (P : Partition size) :
    P.order.Pairwise fun p q => (P.block p).least ≤ (P.block q).least := by
  have htrans : ∀ p q r : Fin P.count,
      decide ((P.block p).least ≤ (P.block q).least) = true →
        decide ((P.block q).least ≤ (P.block r).least) = true →
          decide ((P.block p).least ≤ (P.block r).least) = true := by
    intro p q r hpq hqr
    exact decide_eq_true (Nat.le_trans (of_decide_eq_true hpq) (of_decide_eq_true hqr))
  have htotal : ∀ p q : Fin P.count, (decide ((P.block p).least ≤ (P.block q).least) ||
      decide ((P.block q).least ≤ (P.block p).least)) = true := by
    intro p q
    rw [Bool.or_eq_true, decide_eq_true_eq, decide_eq_true_eq]
    exact Nat.le_total _ _
  exact (List.pairwise_mergeSort htrans htotal (List.finRange P.count)).imp of_decide_eq_true

theorem nodup_order (P : Partition size) : P.order.Nodup :=
  (List.mergeSort_perm _ _).nodup_iff.2 (List.nodup_finRange _)

/-- The blocks in the order in which the states mention them. -/
def mentioned (P : Partition size) : List (Fin P.count) :=
  ((List.finRange size).map P.blockOf).eraseDups

/-- Ascending states with whole blocks mention these by smallest member. -/
theorem Valid.pairwise_mentioned (hP : P.Valid) (states : List (Fin size))
    (hsorted : states.Pairwise (· < ·))
    (hwhole : ∀ s ∈ states, ∀ t, P.blockOf t = P.blockOf s → t ∈ states) :
    ((states.map P.blockOf).eraseDups).Pairwise fun p q =>
      (P.block p).least < (P.block q).least := by
  match states with
  | [] => exact .nil
  | s :: rest =>
      -- behind the first state, the states of its block mention nothing new
      have hfilter : (rest.map P.blockOf).filter (fun p => !p == P.blockOf s) =
          (rest.filter fun t => !P.blockOf t == P.blockOf s).map P.blockOf := by
        rw [List.filter_map]
        rfl
      have hlater : ∀ t ∈ rest.filter fun t => !P.blockOf t == P.blockOf s,
          ∀ u, P.blockOf u = P.blockOf t →
            s < u ∧ u ∈ rest.filter fun t => !P.blockOf t == P.blockOf s := by
        intro t ht u hu
        rw [List.mem_filter, Bool.not_eq_true', beq_eq_false_iff_ne, ← hu] at ht
        have hne : u ≠ s := fun h => ht.2 (congrArg P.blockOf h)
        have hmem := hwhole t (List.mem_cons_of_mem _ ht.1) u hu
        have hrest := (List.mem_cons.1 hmem).resolve_left hne
        refine ⟨(List.pairwise_cons.1 hsorted).1 u hrest, ?_⟩
        rw [List.mem_filter, Bool.not_eq_true', beq_eq_false_iff_ne]
        exact ⟨hrest, ht.2⟩
      have hlt : (rest.filter fun t => !P.blockOf t == P.blockOf s).length < rest.length + 1 :=
        Nat.lt_succ_of_le (List.length_filter_le _ rest)
      rw [List.map_cons, List.eraseDups_cons, hfilter, List.pairwise_cons]
      refine ⟨?_, hP.pairwise_mentioned _ ((List.pairwise_cons.1 hsorted).2.filter _)
        fun t ht u hu => (hlater t ht u hu).2⟩
      intro q hq
      rw [List.mem_eraseDups, List.mem_map] at hq
      obtain ⟨t, ht, rfl⟩ := hq
      obtain ⟨u, hu, hleast⟩ := (P.block (P.blockOf t)).exists_eq_least
      have hsu := (hlater t ht u ((hP _ u).1 hu)).1
      have hs := Block.least_le ((hP _ s).2 rfl)
      rw [← hleast]
      exact Nat.lt_of_le_of_lt hs hsu
termination_by states.length

/-- Every block has a smallest member of its own. -/
theorem Valid.eq_of_least (hP : P.Valid) {p q : Fin P.count}
    (h : (P.block p).least = (P.block q).least) : p = q := by
  obtain ⟨s, hs, hp⟩ := (P.block p).exists_eq_least
  obtain ⟨t, ht, hq⟩ := (P.block q).exists_eq_least
  have hst : s = t := Fin.ext (hp.trans (h.trans hq.symm))
  rw [← (hP p s).1 hs, ← (hP q t).1 ht, hst]

/-- **The blocks come in the order in which the states mention them.** -/
theorem Valid.order_eq_mentioned (hP : P.Valid) : P.order = P.mentioned := by
  have hsorted := hP.pairwise_mentioned (List.finRange size) (List.pairwise_lt_finRange size)
    fun _ _ t _ => List.mem_finRange t
  have hnodup : P.mentioned.Nodup := hsorted.imp fun h heq => by
    rw [heq] at h
    exact Nat.lt_irrefl _ h
  have hperm : P.order.Perm P.mentioned := by
    refine (List.perm_ext_iff_of_nodup ?_ hnodup).2 fun p => ?_
    · exact P.nodup_order
    · refine iff_of_true (P.mem_order p) ?_
      obtain ⟨s, hs⟩ := hP.blockOf_surjective p
      rw [mentioned, List.mem_eraseDups, List.mem_map]
      exact ⟨s, List.mem_finRange s, hs⟩
  exact hperm.eq_of_pairwise (fun p q _ _ hpq hqp => hP.eq_of_least (Nat.le_antisymm hpq hqp))
    P.pairwise_order (hsorted.imp Nat.le_of_lt)

/-- **The block of the first state comes first.** -/
theorem Valid.position_zero (hP : P.Valid) {s : Fin size} (hs : s.val = 0) :
    (P.position (P.blockOf s)).val = 0 := by
  rw [val_position, hP.order_eq_mentioned, mentioned]
  cases size with
  | zero => exact s.elim0
  | succ n =>
      have hzero : s = 0 := Fin.ext hs
      rw [hzero, List.finRange_succ, List.map_cons, List.eraseDups_cons, List.idxOf_cons_self]

end Partition

/-! ## §3. The map into the quotient. -/

namespace Dfa

variable {d : Dfa} {P : Partition d.size} {s t : Fin d.size} {b : UInt8}

/-- No byte is in two groups of a state. -/
def Separate (d : Dfa) : Prop := ∀ s, (d.state s).transitions.Separate

/-- The state that a state is merged into. -/
def mergedInto (d : Dfa) (P : Partition d.size) (s : Fin d.size) : Fin (d.quotient P).size :=
  P.position (P.blockOf s)

theorem mergedInto_eq_iff : d.mergedInto P s = d.mergedInto P t ↔ P.blockOf s = P.blockOf t :=
  ⟨fun h => P.position_injective h, fun h => congrArg P.position h⟩

theorem mergedInto_surjective (hP : P.Valid) : Function.Surjective (d.mergedInto P) :=
  P.position_surjective.comp hP.blockOf_surjective

theorem mergedInto_start (hP : P.Valid) : d.mergedInto P d.start = (d.quotient P).start :=
  Fin.ext (hP.position_zero rfl)

theorem state_mergedInto (P : Partition d.size) (s : Fin d.size) :
    (d.quotient P).state (d.mergedInto P s) =
      d.mergedState P (P.positions P.order P.length_order P.mem_order) (P.blockOf s)
        (d.mergedInto P s) := by
  have h := d.state_quotientBy P P.order P.length_order P.mem_order (d.mergedInto P s)
  have hblock : P.order.get ((P.position (P.blockOf s)).cast P.length_order.symm) = P.blockOf s :=
    P.order_get_position _
  exact h.trans (congrArg (fun p => d.mergedState P _ p (d.mergedInto P s)) hblock)

theorem next_eq_none (s : Fin d.size) (hb : ¬ b.toNat < alphabetSize) : d.next s b = none := by
  cases h : d.next s b with
  | none => rfl
  | some t => exact absurd (Transitions.toNat_lt_of_target? h) hb

/-- **A state leads into the state that its target is merged into**, whoever
of its block lent the transitions. -/
theorem next_mergedInto (hd : d.Separate) (hP : P.Valid) (hstable : d.Stable P) (s : Fin d.size)
    (b : UInt8) :
    (d.quotient P).next (d.mergedInto P s) b = (d.next s b).map (d.mergedInto P) := by
  -- the state of a block has the transitions of the first member
  have hhead : (d.quotient P).next (d.mergedInto P s) b =
      (d.next (P.block (P.blockOf s)).head b).map (d.mergedInto P) := by
    unfold Dfa.next State.target?
    rw [state_mergedInto]
    exact Transitions.target?_redirect (d.mergedInto P) (hd _)
  rw [hhead]
  by_cases hb : b.toNat < alphabetSize
  · -- the first member leads into the same blocks
    have hbyte : b = Symbol.toByte ⟨b.toNat, hb⟩ := by
      rw [← Symbol.ofByte?_eq_some_iff, Symbol.ofByte?, dif_pos hb]
    have hblock := hstable _ s (hP.blockOf_head (P.blockOf s)) ⟨b.toNat, hb⟩
    rw [← hbyte] at hblock
    have hmap : ∀ u : Option (Fin d.size),
        u.map (d.mergedInto P) = (u.map P.blockOf).map P.position := by
      intro u
      rw [Option.map_map]
      rfl
    rw [hmap, hblock, ← hmap]
  · rw [next_eq_none _ hb, next_eq_none _ hb]

theorem accepting_mergedInto (hP : d.Justified P) (s : Fin d.size) :
    ((d.quotient P).state (d.mergedInto P s)).accepting = (d.state s).accepting := by
  rw [state_mergedInto]
  exact hP.accepting _ _ (hP.valid.blockOf_head _)

theorem block_mergedInto (P : Partition d.size) (s : Fin d.size) :
    ((d.quotient P).state (d.mergedInto P s)).block = (P.blockOf s).val := by
  rw [state_mergedInto]
  rfl

/-! ## §4. Minimizing. -/

theorem Separate.mergedState (hd : d.Separate) (positions : Vector (Fin P.count) P.count)
    (p i : Fin P.count) : (d.mergedState P positions p i).transitions.Separate :=
  (hd (P.block p).head).redirect fun target => positions.get (P.blockOf target)

theorem Separate.quotient (hd : d.Separate) (P : Partition d.size) : (d.quotient P).Separate := by
  intro i
  have h := d.state_quotientBy P P.order P.length_order P.mem_order i
  unfold Dfa.quotient
  rw [h]
  exact hd.mergedState _ _ _

theorem Separate.minimizeTimes (hd : d.Separate) (times : Nat) :
    (d.minimizeTimes times).Separate := by
  induction times generalizing d with
  | zero => exact hd
  | succ times ih => exact ih (hd.quotient _)

theorem separate_determinize (nfa : Nfa) : nfa.determinize.Separate := by
  intro s
  rw [Nfa.state_determinize]
  show (nfa.transitionsOf nfa.labels (nfa.labels.get s)).Separate
  rw [Nfa.transitionsOf_eq_redirect]
  exact (nfa.separate_moves _ _).redirect _

/-- A map onto the states of another automaton that keeps the start and
acceptance and follows every byte. -/
structure QuotientMap (d d' : Dfa) (h : Fin d.size → Fin d'.size) : Prop where
  /-- Every state comes from some state. -/
  surjective : Function.Surjective h
  /-- The start comes from the start. -/
  start : h d.start = d'.start
  /-- A byte leads where it led before, or nowhere if it led nowhere. -/
  next : ∀ s b, d'.next (h s) b = (d.next s b).map h
  /-- A state accepts as it did before. -/
  accepting : ∀ s, (d'.state (h s)).accepting = (d.state s).accepting

theorem quotientMap_minimize (hd : d.Separate) :
    d.QuotientMap d.minimize (d.mergedInto d.refinement.1) := by
  obtain ⟨hjust, _, hstable⟩ := d.refinement_spec
  exact ⟨mergedInto_surjective hjust.valid, mergedInto_start hjust.valid,
    next_mergedInto hd hjust.valid hstable, accepting_mergedInto hjust⟩

/-- The automaton with indistinguishable states merged, in the order in which
the states mention their blocks, which takes no sorting. -/
def minimizeAsMentioned (d : Dfa) : Dfa :=
  have hP := d.refinement_spec.1.valid
  d.quotientBy d.refinement.1 d.refinement.1.mentioned
    (hP.order_eq_mentioned ▸ d.refinement.1.length_order)
    (hP.order_eq_mentioned ▸ d.refinement.1.mem_order)

theorem minimize_eq_minimizeAsMentioned (d : Dfa) : d.minimize = d.minimizeAsMentioned := by
  unfold minimize quotient minimizeAsMentioned
  congr 1
  exact d.refinement_spec.1.valid.order_eq_mentioned

/-- **Minimizing is a quotient that keeps behaviour**, however often the
automaton has been minimized before: there is a map onto the states of the
result, both automata accept the same words, and the result is not larger. -/
theorem minimize_is_quotient (nfa : Nfa) (times : Nat) :
    let d := nfa.determinize.minimizeTimes times
    (∃ h, d.QuotientMap d.minimize h) ∧ (∀ w : Word, d.minimize.accepts w = d.accepts w) ∧
      d.minimize.size ≤ d.size := by
  intro d
  have hmap : d.QuotientMap d.minimize _ :=
    quotientMap_minimize ((separate_determinize nfa).minimizeTimes times)
  refine ⟨⟨_, hmap⟩, fun w => accepts_map hmap.start hmap.next hmap.accepting w, ?_⟩
  exact d.refinement_spec.1.valid.count_le

/-- **Minimizing merges as many states as possible**: two states end in one
block, and in one state of the result, exactly when no word of symbols tells
them apart; and a further sweep splits nothing. -/
theorem refinement_is_coarsest (d : Dfa) :
    (∀ s t, d.refinement.1.blockOf s = d.refinement.1.blockOf t ↔ d.Indistinguishable s t) ∧
    (∃ h : Fin d.size → Fin d.minimize.size,
      (∀ s, (d.minimize.state (h s)).block = (d.refinement.1.blockOf s).val) ∧
      ∀ s t, h s = h t ↔ d.Indistinguishable s t) ∧
    d.sweep d.refinement.1 = (d.refinement.1, []) := by
  refine ⟨fun s t => blockOf_refinement_eq_iff, ⟨d.mergedInto d.refinement.1, ?_, ?_⟩,
    d.refinement_spec.2.1⟩
  · exact block_mergedInto d.refinement.1
  · exact fun s t => mergedInto_eq_iff.trans blockOf_refinement_eq_iff

end Dfa

end LineScan
