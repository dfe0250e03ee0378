/-
  LineScan.Proofs.Dfa.Subset
  ──────────────────────────
  **THE DETERMINISTIC AUTOMATON SIMULATES THE OTHER ONE.**

  Exploration keeps two things: labels once found stay where they are
  (`Exploration.found_prefix_run`), and a label that is not waiting to be
  expanded has all its successors among those found (`Exploration.Expanded`).
  When no label is waiting, the labels found are closed under successors, so
  a state has a transition on exactly those symbols on which its label has a
  successor, and the transition leads to the state with that label
  (`map_label_next`).  The rest is an induction on the word.
-/
import LineScan.Dfa.Subset
import LineScan.Proofs.Dfa.Outcome
import LineScan.Proofs.Dfa.Transitions

namespace LineScan

/-! ## §1. Exploration. -/

namespace Exploration

variable {nfa : Nfa}

/-- Labels once found stay where they are. -/
theorem found_prefix_run (e : Exploration nfa) : e.found <+: e.run := by
  fun_induction run e with
  | case1 e _ => exact List.prefix_refl _
  | case2 e label rest _ ih => exact List.IsPrefix.trans (List.prefix_append _ _) ih

/-- Every label found is waiting to be expanded, or has been. -/
def Expanded (e : Exploration nfa) : Prop :=
  ∀ l ∈ e.found, l ∈ e.work ∨ ∀ a l', nfa.successor l a = some l' → l' ∈ e.found

theorem expanded_start (nfa : Nfa) : (start nfa).Expanded := by
  intro l hl
  exact .inl hl

theorem mem_found_of_successor {found rest : List nfa.NodeSet} {label l : nfa.NodeSet}
    {a : Symbol} (h : nfa.successor label a = some l) : l ∈ (expand found rest label).found := by
  show l ∈ found ++ nfa.freshSuccessors found label
  by_cases hl : l ∈ found
  · exact List.mem_append_left _ hl
  · apply List.mem_append_right
    have hmem : l ∈ nfa.successors label := List.mem_filterMap.2 ⟨a, mem_alphabet a, h⟩
    rw [Nfa.freshSuccessors, List.mem_eraseDups, List.mem_filter]
    exact ⟨hmem, decide_eq_true hl⟩

theorem Expanded.expand {e : Exploration nfa} {label : nfa.NodeSet} {rest : List nfa.NodeSet}
    (h : e.Expanded) (hwork : e.work = label :: rest) :
    (expand e.found rest label).Expanded := by
  intro l hl
  rcases List.mem_append.1 hl with hl | hl
  · rcases h l hl with hw | hs
    · rw [hwork] at hw
      rcases List.mem_cons.1 hw with hw | hw
      · -- the label expanded now has its successors among those found
        subst hw
        exact .inr fun a l' hl' => mem_found_of_successor hl'
      · exact .inl (List.mem_append_right _ hw)
    · exact .inr fun a l' hl' => List.mem_append_left _ (hs a l' hl')
  · -- a label found now waits
    exact .inl (List.mem_append_left _ (List.mem_reverse.2 hl))

/-- **The labels found are closed under successors** when no label is waiting
any more. -/
theorem Expanded.run_closed {e : Exploration nfa} (h : e.Expanded) {l l' : nfa.NodeSet}
    {a : Symbol} (hl : l ∈ e.run) (hs : nfa.successor l a = some l') : l' ∈ e.run := by
  fun_induction run e with
  | case1 e hwork =>
      rcases h l hl with hw | hclosed
      · rw [hwork] at hw
        cases hw
      · exact hclosed a l' hs
  | case2 e label rest hwork ih => exact ih (h.expand hwork) hl

end Exploration

namespace Nfa

variable (nfa : Nfa) {b : UInt8} {w : Word}

theorem labels_closed {l l' : nfa.NodeSet} {a : Symbol} (hl : l ∈ nfa.labels)
    (hs : nfa.successor l a = some l') : l' ∈ nfa.labels :=
  (Exploration.expanded_start nfa).run_closed hl hs

theorem get_labels_zero : nfa.labels.get ⟨0, nfa.length_labels_pos⟩ = nfa.initial := by
  obtain ⟨rest, hrest⟩ := (Exploration.start nfa).found_prefix_run
  have hlabels : nfa.labels = nfa.initial :: rest := hrest.symm
  simp only [List.get_eq_getElem, hlabels, List.getElem_cons_zero]

/-! ## §2. One state. -/

/-- Where a label leads on each symbol, every symbol in a group of its own. -/
def moves (labels : List nfa.NodeSet) (label : nfa.NodeSet) : Transitions labels.length :=
  alphabet.filterMap fun a =>
    ((nfa.successor label a).bind labels.finIdxOf?).map fun target => ⟨target, BitSet.ofList [a]⟩

theorem transitionsOf_eq_redirect (labels : List nfa.NodeSet) (label : nfa.NodeSet) :
    nfa.transitionsOf labels label = Dfa.redirect id (nfa.moves labels label) := by
  unfold transitionsOf Dfa.redirect moves
  rw [List.foldl_filterMap]
  congr 1
  funext ts a
  cases (nfa.successor label a).bind labels.finIdxOf? <;> rfl

theorem contains_ofList_symbol {a : Symbol} {k : Nat} :
    (BitSet.ofList [a]).contains k = true ↔ k = a := by
  simp [BitSet.contains_ofList]

theorem separate_moves (labels : List nfa.NodeSet) (label : nfa.NodeSet) :
    (nfa.moves labels label).Separate := by
  refine List.pairwise_filterMap.2 (List.Pairwise.imp ?_ (List.nodup_finRange alphabetSize))
  -- groups of different symbols hold different numbers
  intro a a' hne t ht t' ht' k hk hk'
  rw [Option.map_eq_some_iff] at ht ht'
  obtain ⟨_, _, ht⟩ := ht
  obtain ⟨_, _, ht'⟩ := ht'
  subst ht
  subst ht'
  rw [contains_ofList_symbol] at hk hk'
  exact hne (Fin.ext (hk.symm.trans hk'))

theorem target?_moves (labels : List nfa.NodeSet) (label : nfa.NodeSet) (b : UInt8) :
    (nfa.moves labels label).target? b =
      (Symbol.ofByte? b).bind fun a => (nfa.successor label a).bind labels.finIdxOf? := by
  cases ha : Symbol.ofByte? b with
  | none =>
      have hb : ¬ b.toNat < alphabetSize := by
        intro hb
        rw [Symbol.ofByte?, dif_pos hb] at ha
        cases ha
      cases ht : (nfa.moves labels label).target? b with
      | none => rfl
      | some t => exact absurd (Transitions.toNat_lt_of_target? ht) hb
  | some a =>
      have hb := Symbol.ofByte?_eq_some_iff.1 ha
      rw [Option.bind_some]
      cases hmove : (nfa.successor label a).bind labels.finIdxOf? with
      | none =>
          rw [Transitions.target?_eq_none_iff]
          intro t ht hk
          obtain ⟨a', _, ht⟩ := List.mem_filterMap.1 ht
          rw [Option.map_eq_some_iff] at ht
          obtain ⟨target, hmove', ht⟩ := ht
          subst ht
          rw [contains_ofList_symbol, hb, Symbol.toNat_toByte] at hk
          rw [← Fin.ext hk, hmove] at hmove'
          cases hmove'
      | some target =>
          refine (nfa.separate_moves labels label).target?_eq_some
            (t := ⟨target, BitSet.ofList [a]⟩) ?_ ?_
          · refine List.mem_filterMap.2 ⟨a, mem_alphabet a, ?_⟩
            rw [hmove]
            rfl
          · rw [contains_ofList_symbol, hb, Symbol.toNat_toByte]

theorem state_determinize (s : Fin nfa.determinize.size) :
    nfa.determinize.state s = nfa.stateOf nfa.labels s := by
  exact nfa.state_ofLabels nfa.labels nfa.length_labels_pos s

/-- The label of a state of the deterministic automaton. -/
def labelOf (s : Fin nfa.determinize.size) : nfa.NodeSet := (nfa.determinize.state s).label

theorem labelOf_eq_get (s : Fin nfa.determinize.size) : nfa.labelOf s = nfa.labels.get s := by
  unfold labelOf
  rw [state_determinize]
  rfl

theorem accepting_determinize (s : Fin nfa.determinize.size) :
    (nfa.determinize.state s).accepting = nfa.isAccepting (nfa.labelOf s) := by
  rw [labelOf_eq_get, state_determinize]
  rfl

theorem labelOf_start : nfa.labelOf nfa.determinize.start = nfa.initial := by
  rw [labelOf_eq_get]
  exact nfa.get_labels_zero

/-- **A state leads where its label does**: to the state whose label is the
successor, if there is a successor. -/
theorem map_labelOf_next (s : Fin nfa.determinize.size) (b : UInt8) :
    (nfa.determinize.next s b).map nfa.labelOf =
      (Symbol.ofByte? b).bind (nfa.successor (nfa.labelOf s)) := by
  have hnext : nfa.determinize.next s b =
      (Symbol.ofByte? b).bind fun a =>
        (nfa.successor (nfa.labelOf s) a).bind nfa.labels.finIdxOf? := by
    rw [labelOf_eq_get, ← target?_moves]
    unfold Dfa.next State.target?
    rw [state_determinize]
    show (nfa.transitionsOf nfa.labels (nfa.labels.get s)).target? b = _
    rw [transitionsOf_eq_redirect, Transitions.target?_redirect id (nfa.separate_moves _ _),
      Option.map_id_fun, id_eq]
  rw [hnext]
  cases Symbol.ofByte? b with
  | none => rfl
  | some a =>
      rw [Option.bind_some, Option.bind_some]
      cases hs : nfa.successor (nfa.labelOf s) a with
      | none => rfl
      | some l =>
          -- a successor of a label is a label, so it has a position
          have hlabel : nfa.labelOf s ∈ nfa.labels := by
            rw [labelOf_eq_get]
            exact List.get_mem nfa.labels s
          have hl : l ∈ nfa.labels := nfa.labels_closed hlabel hs
          rw [Option.bind_some]
          cases hi : nfa.labels.finIdxOf? l with
          | none => exact absurd hl (List.finIdxOf?_eq_none_iff.1 hi)
          | some i =>
              have hget : nfa.labels.get i = l := (List.finIdxOf?_eq_some_iff.1 hi).1
              exact congrArg some ((nfa.labelOf_eq_get i).trans hget)

/-! ## §3. Runs. -/

theorem runFrom_cons (l : nfa.NodeSet) (b : UInt8) (w : Word) :
    nfa.runFrom l (b :: w) =
      ((Symbol.ofByte? b).bind (nfa.successor l)).bind fun l' => nfa.runFrom l' w := by
  rw [runFrom]
  by_cases hb : b.toNat < alphabetSize
  · have ha : Symbol.ofByte? b = some ⟨b.toNat, hb⟩ := by rw [Symbol.ofByte?, dif_pos hb]
    have hbyte : Symbol.toByte ⟨b.toNat, hb⟩ = b := (Symbol.ofByte?_eq_some_iff.1 ha).symm
    rw [if_pos hb, ha, Option.bind_some, successor, hbyte]
    cases nfa.step l b <;> rfl
  · rw [if_neg hb, Symbol.ofByte?, dif_neg hb]
    rfl

theorem map_labelOf_runFrom (s : Fin nfa.determinize.size) (w : Word) :
    (nfa.determinize.runFrom s w).map nfa.labelOf = nfa.runFrom (nfa.labelOf s) w := by
  induction w generalizing s with
  | nil => rfl
  | cons b w ih =>
      rw [Dfa.runFrom_cons, runFrom_cons, ← map_labelOf_next, Option.map_bind, Option.bind_map]
      congr 1
      funext t
      exact ih t

theorem map_labelOf_runFrom_start (w : Word) :
    (nfa.determinize.runFrom nfa.determinize.start w).map nfa.labelOf =
      nfa.runFrom nfa.initial w := by
  rw [map_labelOf_runFrom, labelOf_start]

theorem accepts_determinize (w : Word) : nfa.determinize.accepts w = nfa.accepts w := by
  unfold Dfa.accepts Nfa.accepts
  rw [← map_labelOf_runFrom_start]
  cases nfa.determinize.runFrom nfa.determinize.start w with
  | none => rfl
  | some s => exact nfa.accepting_determinize s

/-- **The deterministic automaton simulates the other one**: the state that a
word leads to carries the set of nodes that the runs over the word may be at,
there is no such state exactly when all runs die, and the state accepts
exactly when one of the nodes is terminal. -/
theorem determinize_simulates :
    (∀ w : Word, (nfa.determinize.runFrom nfa.determinize.start w).map nfa.labelOf =
      nfa.runFrom nfa.initial w) ∧
    (∀ s, (nfa.determinize.state s).accepting = true ↔
      ∃ i : Fin nfa.size, (nfa.labelOf s).contains i = true ∧ (nfa.node i).isTerminal = true) ∧
    ∀ w : Word, nfa.determinize.accepts w = nfa.accepts w := by
  refine ⟨nfa.map_labelOf_runFrom_start, ?_, nfa.accepts_determinize⟩
  intro s
  rw [accepting_determinize, isAccepting_iff]

end Nfa

end LineScan
