/-
  LineScan.Proofs.Dfa.Idempotence
  ───────────────────────────────
  **MERGING A SECOND TIME CHANGES NOTHING.**

  Once no two states are indistinguishable, every block has one member.  Then
  the order of the blocks by smallest member is the order of the states, so
  every state is merged into the one at its own position, and redirecting its
  transitions replaces each target by itself: no two groups of a state have
  one target, so none of them are joined and none are moved.

  What a state keeps of the merging is the number of its block, and nothing
  reads it.  `withoutBlocks` forgets it, and what is left is the same
  automaton: not only an equivalent one, but state by state and group by group.
-/
import LineScan.Proofs.Dfa.WellFormed
import Mathlib.Order.Fin.Basic
import Mathlib.Order.Hom.Set

namespace LineScan

/-! ## §1. Groups that stay as they are. -/

namespace Transitions

variable {size : Nat} {ts : Transitions size} {s : Fin size} {S : SymbolSet}

/-- Symbols of a new target are recorded behind the other groups. -/
theorem record_of_not_mem (h : s ∉ ts.targets) : record s S ts = ts ++ [⟨s, S⟩] := by
  induction ts with
  | nil => rfl
  | cons t ts ih =>
      unfold targets at h ih
      rw [List.map_cons, List.mem_cons, not_or] at h
      rw [record, if_neg (Ne.symm h.1), ih h.2]
      rfl

/-- Groups that come one by one behind others, with new targets each, stay
groups of their own. -/
theorem foldl_record_of_nodup (acc : Transitions size) (h : (targets (acc ++ ts)).Nodup) :
    ts.foldl (fun merged t => merged.record t.target t.symbols) acc = acc ++ ts := by
  induction ts generalizing acc with
  | nil => exact (List.append_nil acc).symm
  | cons t ts ih =>
      have hassoc : acc ++ t :: ts = (acc ++ [t]) ++ ts := by simp
      have hnew : t.target ∉ targets acc := by
        unfold targets at h ⊢
        rw [List.map_append, List.map_cons] at h
        exact fun hmem => List.disjoint_of_nodup_append h hmem List.mem_cons_self
      rw [hassoc] at h
      rw [List.foldl_cons, record_of_not_mem hnew, ih _ h, hassoc]

/-- **Groups in order are left alone** when every target is replaced by
itself. -/
theorem WellFormed.redirect_eq_self (h : ts.WellFormed) {f : Fin size → Fin size}
    (hf : ∀ s, f s = s) : Dfa.redirect f ts = ts := by
  unfold Dfa.redirect
  simp only [hf]
  exact foldl_record_of_nodup [] h.targets

end Transitions

/-! ## §2. Blocks of one member. -/

namespace Partition

variable {size : Nat} {P : Partition size}

/-- The first member of a block of one state is that state. -/
theorem Valid.head_of_injective (hP : P.Valid) (hinj : Function.Injective P.blockOf)
    (s : Fin size) : (P.block (P.blockOf s)).head = s :=
  hinj (hP.blockOf_head _)

theorem Valid.least_of_injective (hP : P.Valid) (hinj : Function.Injective P.blockOf)
    (s : Fin size) : (P.block (P.blockOf s)).least = s.val := by
  obtain ⟨t, ht, hleast⟩ := (P.block (P.blockOf s)).exists_eq_least
  rw [← hleast, hinj ((hP _ t).1 ht)]

/-- Blocks of one member come in the order of the states. -/
theorem Valid.strictMono_position (hP : P.Valid) (hinj : Function.Injective P.blockOf) :
    StrictMono fun s => P.position (P.blockOf s) := by
  intro s t hst
  by_contra hle
  have hne : P.position (P.blockOf t) ≠ P.position (P.blockOf s) :=
    fun h => absurd (hinj (P.position_injective h)) (Fin.ne_of_gt hst)
  have hlt : P.position (P.blockOf t) < P.position (P.blockOf s) :=
    lt_of_le_of_ne (not_lt.1 hle) hne
  -- the block that comes first has the smaller member
  have hleast := List.pairwise_iff_get.1 P.pairwise_order
    ((P.position (P.blockOf t)).cast P.length_order.symm)
    ((P.position (P.blockOf s)).cast P.length_order.symm) hlt
  rw [P.order_get_position, P.order_get_position, hP.least_of_injective hinj,
    hP.least_of_injective hinj] at hleast
  exact absurd hst (Nat.not_lt.2 hleast)

/-- **Blocks of one member keep the positions of the states.** -/
theorem Valid.position_blockOf (hP : P.Valid) (hinj : Function.Injective P.blockOf)
    (s : Fin size) : (P.position (P.blockOf s)).val = s.val := by
  have hsurj : Function.Surjective fun s => P.position (P.blockOf s) :=
    P.position_surjective.comp hP.blockOf_surjective
  have hmono := hP.strictMono_position hinj
  exact Fin.coe_orderIso_apply (StrictMono.orderIsoOfSurjective _ hmono hsurj) s

/-- There are as many blocks of one member as states. -/
theorem Valid.count_of_injective (hP : P.Valid) (hinj : Function.Injective P.blockOf) :
    P.count = size := by
  have hle := Fintype.card_le_of_injective P.blockOf hinj
  rw [Fintype.card_fin, Fintype.card_fin] at hle
  exact Nat.le_antisymm hP.count_le hle

end Partition

/-! ## §3. The automaton without the numbers of blocks. -/

/-- A state with the number of its block forgotten. -/
def State.withoutBlock {capacity size : Nat} (s : State capacity size) : State capacity size :=
  { s with block := 0 }

namespace Dfa

variable {d : Dfa}

/-- **All of an automaton but the numbers of the blocks** that its states were
made from. -/
def withoutBlocks (d : Dfa) : Dfa := { d with states := d.states.map State.withoutBlock }

theorem withoutBlocks_eq {capacity size : Nat} {states states' : Vector (State capacity size) size}
    (hpos : 0 < size) (h : ∀ s, (states.get s).withoutBlock = (states'.get s).withoutBlock) :
    (Dfa.mk capacity size states hpos).withoutBlocks =
      (Dfa.mk capacity size states' hpos).withoutBlocks := by
  have hstates : states.map State.withoutBlock = states'.map State.withoutBlock := by
    ext i hi
    rw [Vector.getElem_map, Vector.getElem_map]
    exact h ⟨i, hi⟩
  unfold withoutBlocks
  rw [hstates]

/-- A quotient that puts every state in its own place is the automaton
itself. -/
theorem withoutBlocks_quotient (hd : d.WellFormed) (P : Partition d.size)
    (hcount : P.count = d.size) (hplace : ∀ s, (P.position (P.blockOf s)).val = s.val)
    (hhead : ∀ s, (P.block (P.blockOf s)).head = s) :
    (d.quotient P).withoutBlocks = d.withoutBlocks := by
  -- with the number of blocks in place of the number of states, both have one type
  obtain ⟨capacity, size, states, hpos⟩ := d
  obtain ⟨count, blocks, numbers⟩ := P
  change count = size at hcount
  subst hcount
  refine withoutBlocks_eq hpos fun s => ?_
  let d : Dfa := ⟨capacity, count, states, hpos⟩
  let P : Partition d.size := ⟨count, blocks, numbers⟩
  have hself : d.mergedInto P s = s := Fin.ext (hplace s)
  have hstate : (d.quotient P).state s = _ := hself ▸ d.state_mergedInto P s
  show ((d.quotient P).state s).withoutBlock = (d.state s).withoutBlock
  have hrepresentative : (P.block (P.blockOf s)).head = s := hhead s
  have hgroups : redirect (fun target => P.position (P.blockOf target)) (d.state s).transitions =
      (d.state s).transitions :=
    (hd.transitions s).redirect_eq_self fun t => Fin.ext (hplace t)
  have hid : (d.state s).id = s.val := hd.id_eq s
  have hindex : (d.state s).index = s.val := hd.index_eq s
  rw [hstate]
  unfold mergedState State.withoutBlock
  rw [hrepresentative, hid, hindex]
  exact congrArg (State.mk _ _ _ _ _) hgroups

/-- **An automaton in order without indistinguishable states** is what merging
makes of it. -/
theorem WellFormed.withoutBlocks_minimize (hd : d.WellFormed)
    (hdistinct : ∀ s t, d.Indistinguishable s t → s = t) :
    d.minimize.withoutBlocks = d.withoutBlocks := by
  have hvalid := d.refinement_spec.1.valid
  have hinj : Function.Injective d.refinement.1.blockOf :=
    fun s t hst => hdistinct s t (blockOf_refinement_eq_iff.1 hst)
  exact withoutBlocks_quotient hd d.refinement.1 (hvalid.count_of_injective hinj)
    (hvalid.position_blockOf hinj) (hvalid.head_of_injective hinj)

/-- **Merging a second time changes nothing** but the numbers of the blocks:
the states are the same in number and order, with the same labels, names,
positions and acceptance, and the same groups in the same order. -/
theorem minimize_minimize_determinize (nfa : Nfa) :
    nfa.determinize.minimize.minimize.withoutBlocks = nfa.determinize.minimize.withoutBlocks := by
  have hd := wellFormed_determinize nfa
  exact hd.minimize.withoutBlocks_minimize (minimize_separate hd.separate)

end Dfa

end LineScan
