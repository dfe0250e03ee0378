/-
  LineScan.Proofs.Dfa.WellFormed
  ──────────────────────────────
  **WHAT THE STATES OF AN AUTOMATON ARE LIKE.**

  An automaton is `WellFormed` when every state carries its own position, is
  reached from the start, has a label that no other state has, and keeps its
  transitions in order: one group for each target, none of them empty, and no
  symbol in two of them.

      determinize   a label is found once, and only when a word leads to it;
                    groups are recorded symbol by symbol
      minimize      a state takes label and groups from the first member of
                    its block, and no state is the first member of two blocks

  Groups only ever arise by recording, and both constructions are cases of
  redirecting groups that are disjoint and not empty
  (`Transitions.Separate.wellFormed_redirect`).
-/
import LineScan.Proofs.Dfa.Reachable

namespace LineScan

/-! ## §1. Groups in order. -/

/-- Some symbol leads to the target of the group. -/
def Transition.Inhabited {size : Nat} (t : Transition size) : Prop :=
  ∃ a : Symbol, t.symbols.contains a.val = true

namespace Transitions

variable {size size' : Nat} {ts : Transitions size} {s u : Fin size} {S : SymbolSet}

/-- The targets of the groups. -/
def targets (ts : Transitions size) : List (Fin size) := ts.map (·.target)

/-- **Groups in order**: one for each target, none empty, none overlapping. -/
structure WellFormed (ts : Transitions size) : Prop where
  /-- No target has two groups. -/
  targets : ts.targets.Nodup
  /-- No group is empty. -/
  inhabited : ∀ t ∈ ts, t.Inhabited
  /-- No symbol is in two groups. -/
  separate : ts.Separate

/-- Recording adds its target, unless it is there, and no other one. -/
theorem mem_targets_record : u ∈ (record s S ts).targets ↔ u = s ∨ u ∈ ts.targets := by
  induction ts with
  | nil => simp [record, targets]
  | cons t ts ih =>
      unfold targets at ih ⊢
      unfold record
      split
      case isTrue htarget =>
          rw [List.map_cons, List.map_cons, List.mem_cons, ← htarget]
          exact ⟨.inr, fun h => h.elim .inl id⟩
      case isFalse =>
          rw [List.map_cons, List.map_cons, List.mem_cons, List.mem_cons, ih]
          exact or_left_comm

theorem nodup_targets_record (h : ts.targets.Nodup) : (record s S ts).targets.Nodup := by
  induction ts with
  | nil => exact List.nodup_singleton s
  | cons t ts ih =>
      obtain ⟨hfirst, hrest⟩ := List.nodup_cons.1 h
      unfold record
      split
      case isTrue => exact h
      case isFalse hne =>
          -- the new group comes behind this one, whose target it does not have
          refine List.nodup_cons.2 ⟨fun hmem => ?_, ih hrest⟩
          rcases mem_targets_record.1 hmem with htarget | hmem
          · exact hne htarget
          · exact hfirst hmem

theorem inhabited_of_mem_record (h : ∀ t ∈ ts, t.Inhabited)
    (hS : ∃ a : Symbol, S.contains a.val = true) {t : Transition size} (ht : t ∈ record s S ts) :
    t.Inhabited := by
  induction ts with
  | nil =>
      rw [record, List.mem_singleton] at ht
      exact ht ▸ hS
  | cons u ts ih =>
      unfold record at ht
      split at ht
      · rcases List.mem_cons.1 ht with ht | ht
        · subst ht
          obtain ⟨a, ha⟩ := h u List.mem_cons_self
          exact ⟨a, by rw [BitSet.contains_union, ha, Bool.true_or]⟩
        · exact h t (List.mem_cons_of_mem _ ht)
      · rcases List.mem_cons.1 ht with ht | ht
        · exact ht ▸ h u List.mem_cons_self
        · exact ih (fun v hv => h v (List.mem_cons_of_mem _ hv)) ht

/-- **Redirecting puts groups in order**, whatever targets they had. -/
theorem Separate.wellFormed_redirect (h : ts.Separate) (hin : ∀ t ∈ ts, t.Inhabited)
    (f : Fin size → Fin size') : WellFormed (Dfa.redirect f ts) where
  targets := by
    let motive : Transitions size' → Prop := fun acc => acc.targets.Nodup
    exact List.foldlRecOn ts _ (motive := motive) List.nodup_nil
      fun acc hacc t _ => nodup_targets_record hacc
  inhabited := by
    let motive : Transitions size' → Prop := fun acc => ∀ u ∈ acc, u.Inhabited
    exact List.foldlRecOn ts _ (motive := motive) (fun u hu => absurd hu List.not_mem_nil)
      fun acc hacc t ht u hu => inhabited_of_mem_record hacc (hin t ht) hu
  separate := h.redirect f

/-! ## §2. Counting. -/

theorem countP_or_of_disjoint {α : Type} {p q : α → Bool} (h : ∀ a, p a = true → q a = false)
    (l : List α) : l.countP (fun a => p a || q a) = l.countP p + l.countP q := by
  induction l with
  | nil => rfl
  | cons a l ih =>
      rw [List.countP_cons, List.countP_cons, List.countP_cons, ih]
      cases hp : p a with
      | true =>
          rw [h a hp]
          simp only [Bool.true_or, if_true, Bool.false_eq_true, if_false]
          omega
      | false =>
          simp only [Bool.false_or, Bool.false_eq_true, if_false]
          omega

/-- **The groups hold as many symbols as lead anywhere.** -/
theorem Separate.count_eq (h : ts.Separate) :
    ts.count = alphabet.countP fun a => (ts.target? a.toByte).isSome := by
  induction ts with
  | nil => exact (List.countP_eq_zero.2 fun a _ => Bool.false_ne_true).symm
  | cons t ts ih =>
      obtain ⟨hfirst, hrest⟩ := List.pairwise_cons.1 h
      have hcount : t.symbols.count = alphabet.countP fun a => t.symbols.contains a.val :=
        List.countP_eq_length_filter.symm
      have hsome : ∀ a : Symbol, (target? (t :: ts) a.toByte).isSome =
          (t.symbols.contains a.val || (target? ts a.toByte).isSome) := by
        intro a
        rw [target?_cons, Symbol.toNat_toByte]
        cases t.symbols.contains a.val <;> rfl
      -- a symbol of this group is in no other one
      have hdisjoint : ∀ a : Symbol, t.symbols.contains a.val = true →
          (target? ts a.toByte).isSome = false := by
        intro a ha
        rw [Option.isSome_eq_false_iff, Option.isNone_iff_eq_none, target?_eq_none_iff]
        intro u hu
        rw [Symbol.toNat_toByte]
        exact hfirst u hu a.val ha
      simp only [hsome]
      rw [countP_or_of_disjoint hdisjoint, ← hcount, ← ih hrest]
      rfl

end Transitions

/-! ## §3. Automata in order. -/

namespace Dfa

variable {d : Dfa}

/-- **An automaton in order.** -/
structure WellFormed (d : Dfa) : Prop where
  /-- Names are given by position. -/
  id_eq : ∀ s, (d.state s).id = s.val
  /-- Every state knows its position. -/
  index_eq : ∀ s, (d.state s).index = s.val
  /-- Some word leads to every state. -/
  reachable : ∀ s, d.Reachable s
  /-- States that stand for the same nodes are the same. -/
  label : ∀ s t, (∀ k, (d.state s).label.contains k = (d.state t).label.contains k) → s = t
  /-- The groups of every state are in order. -/
  transitions : ∀ s, (d.state s).transitions.WellFormed

theorem WellFormed.separate (h : d.WellFormed) : d.Separate := fun s => (h.transitions s).separate

theorem WellFormed.count_eq (h : d.WellFormed) (s : Fin d.size) :
    (d.state s).transitions.count = alphabet.countP fun a => (d.next s a.toByte).isSome :=
  (h.separate s).count_eq

/-- **The states of an exploration are in order.** -/
theorem wellFormed_determinize (nfa : Nfa) : nfa.determinize.WellFormed where
  id_eq s := by rw [Nfa.state_determinize]; rfl
  index_eq s := by rw [Nfa.state_determinize]; rfl
  reachable := nfa.reachable_determinize
  label s t h := nfa.labelOf_injective (BitSet.ext fun i => h i)
  transitions s := by
    rw [Nfa.state_determinize]
    show (nfa.transitionsOf nfa.labels (nfa.labels.get s)).WellFormed
    rw [Nfa.transitionsOf_eq_redirect]
    refine (nfa.separate_moves _ _).wellFormed_redirect ?_ id
    -- every move is made on a symbol
    intro t ht
    obtain ⟨a, _, ha⟩ := List.mem_filterMap.1 ht
    obtain ⟨target, _, ha⟩ := Option.map_eq_some_iff.1 ha
    exact ⟨a, ha ▸ Nfa.contains_ofList_symbol.2 rfl⟩

/-- **Merging keeps states in order.** -/
theorem WellFormed.minimize (h : d.WellFormed) : d.minimize.WellFormed := by
  have hq := quotientMap_minimize h.separate
  have hvalid := d.refinement_spec.1.valid
  -- every state of the result is one that a state is merged into
  have hstate : ∀ i, ∃ s, i = d.mergedInto d.refinement.1 s := by
    intro i
    obtain ⟨s, hs⟩ := hq.surjective i
    exact ⟨s, hs.symm⟩
  refine ⟨?_, ?_, ?_, ?_, ?_⟩
  · intro i
    obtain ⟨s, rfl⟩ := hstate i
    exact congrArg State.id (state_mergedInto d.refinement.1 s)
  · intro i
    obtain ⟨s, rfl⟩ := hstate i
    exact congrArg State.index (state_mergedInto d.refinement.1 s)
  · intro i
    obtain ⟨s, rfl⟩ := hstate i
    exact hq.reachable (h.reachable s)
  · intro i j hij
    obtain ⟨s, rfl⟩ := hstate i
    obtain ⟨t, rfl⟩ := hstate j
    -- the labels are those of the first members, which are therefore the same
    have hhead : (d.refinement.1.block (d.refinement.1.blockOf s)).head =
        (d.refinement.1.block (d.refinement.1.blockOf t)).head := by
      apply h.label
      intro k
      have hk := hij k
      unfold Dfa.minimize at hk
      rw [state_mergedInto, state_mergedInto] at hk
      exact hk
    apply mergedInto_eq_iff.2
    rw [← hvalid.blockOf_head (d.refinement.1.blockOf s), hhead, hvalid.blockOf_head]
  · intro i
    obtain ⟨s, rfl⟩ := hstate i
    unfold Dfa.minimize
    rw [state_mergedInto]
    have hgroups := h.transitions (d.refinement.1.block (d.refinement.1.blockOf s)).head
    exact hgroups.separate.wellFormed_redirect hgroups.inhabited (d.mergedInto d.refinement.1)

theorem WellFormed.minimizeTimes (h : d.WellFormed) (times : Nat) :
    (d.minimizeTimes times).WellFormed := by
  induction times generalizing d with
  | zero => exact h
  | succ times ih => exact ih h.minimize

/-- **Every automaton that is made of nodes is in order**, however often its
states have been merged; and the groups of a state hold exactly as many
symbols as lead from it anywhere. -/
theorem minimizeTimes_determinize_wellFormed (nfa : Nfa) (times : Nat) :
    let d := nfa.determinize.minimizeTimes times
    d.WellFormed ∧ ∀ s, (d.state s).transitions.count =
      alphabet.countP fun a => (d.next s a.toByte).isSome := by
  intro d
  have h : d.WellFormed := (wellFormed_determinize nfa).minimizeTimes times
  exact ⟨h, h.count_eq⟩

end Dfa

end LineScan
