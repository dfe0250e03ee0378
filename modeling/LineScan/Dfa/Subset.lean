/-
  LineScan.Dfa.Subset
  ───────────────────
  **DETERMINISTIC STATES ARE SETS OF NODES.**

  The runs of a non-deterministic automaton that have consumed the same word
  are at a set of nodes, its *label*.  Labels are found by exploration: a
  label taken from the work list is expanded, that is, followed on every
  symbol in order, and the labels not found before join both the list of
  labels and the work list.  The label found last is expanded first.

  Exploration ends although the work list grows: a label that joins it was
  not found before, and there are only finitely many sets of nodes.

  The automaton is read off the labels found: state `i` stands for the label
  found as number `i`.
-/
import LineScan.Dfa.Basic
import LineScan.Nfa.Basic

namespace LineScan

/-! ## §1. One label. -/

namespace Nfa

variable (nfa : Nfa)

/-- The label reached from a label on a symbol; nothing when no run goes
on. -/
def successor (label : nfa.NodeSet) (a : Symbol) : Option nfa.NodeSet :=
  (nfa.step label a.toByte).map nfa.close

/-- The labels reached from a label, by symbol. -/
def successors (label : nfa.NodeSet) : List nfa.NodeSet := alphabet.filterMap (nfa.successor label)

/-- The labels reached from a label and not found before, each once. -/
def freshSuccessors (found : List nfa.NodeSet) (label : nfa.NodeSet) : List nfa.NodeSet :=
  ((nfa.successors label).filter fun l => decide (l ∉ found)).eraseDups

end Nfa

/-! ## §2. Exploration. -/

/-- How far an exploration has come. -/
structure Exploration (nfa : Nfa) where
  /-- The labels found, in the order of their discovery. -/
  found : List nfa.NodeSet
  /-- The labels to be expanded, the next one first. -/
  work : List nfa.NodeSet

namespace Exploration

variable {nfa : Nfa}

/-- Only the initial label has been found. -/
def start (nfa : Nfa) : Exploration nfa := ⟨[nfa.initial], [nfa.initial]⟩

/-- Expands a label that has been taken from the work list, of which `rest`
is left. -/
def expand (found rest : List nfa.NodeSet) (label : nfa.NodeSet) : Exploration nfa :=
  let fresh := nfa.freshSuccessors found label
  ⟨found ++ fresh, fresh.reverse ++ rest⟩

/-- All sets of nodes. -/
def allLabels (n : Nat) : List (BitSet n) :=
  (List.range (Nat.pow 2 n)).map fun k => ⟨BitVec.ofNat n k⟩

theorem mem_allLabels {n : Nat} (s : BitSet n) : s ∈ allLabels n := by
  simp only [allLabels, List.mem_map, List.mem_range]
  exact ⟨s.bits.toNat, s.bits.isLt, by simp⟩

/-- The sets of nodes that have not been found. -/
def unfound {n : Nat} (found : List (BitSet n)) : List (BitSet n) :=
  (allLabels n).filter fun l => !found.contains l

theorem unfound_append {n : Nat} (found fresh : List (BitSet n)) :
    unfound (found ++ fresh) = (unfound found).filter fun l => !fresh.contains l := by
  simp only [unfound, List.filter_filter]
  apply List.filter_congr
  intro l _
  rw [List.contains_append, Bool.not_or, Bool.and_comm]

/-- A set that is found now is no longer to be found. -/
theorem length_unfound_append_lt {n : Nat} {found fresh : List (BitSet n)} {l : BitSet n}
    (hl : l ∈ fresh) (hnot : l ∉ found) :
    (unfound (found ++ fresh)).length < (unfound found).length := by
  rw [unfound_append, List.length_filter_lt_length_iff_exists]
  exact ⟨l, by simp [unfound, mem_allLabels, hnot], by simpa using hl⟩

theorem length_eraseDups_le {α : Type} [BEq α] (l : List α) : l.eraseDups.length ≤ l.length := by
  match l with
  | [] => exact Nat.le_refl 0
  | x :: l =>
      have hfilter := List.length_filter_le (fun y => !y == x) l
      have hrest := length_eraseDups_le (l.filter fun y => !y == x)
      rw [List.eraseDups_cons, List.length_cons, List.length_cons]
      omega
termination_by l.length
decreasing_by exact Nat.lt_succ_of_le hfilter

/-- A label leads to one label on each symbol at most. -/
theorem length_freshSuccessors_le (found : List nfa.NodeSet) (label : nfa.NodeSet) :
    (nfa.freshSuccessors found label).length ≤ alphabetSize := by
  have hsuccessors : (nfa.successors label).length ≤ alphabet.length :=
    List.length_filterMap_le _ _
  have hfilter := List.length_filter_le (fun l => decide (l ∉ found)) (nfa.successors label)
  have halphabet : alphabet.length = alphabetSize := List.length_finRange
  have hfresh := length_eraseDups_le
    ((nfa.successors label).filter fun l => decide (l ∉ found))
  unfold Nfa.freshSuccessors
  omega

/-- Expanding a label leaves fewer labels to be found, or finds none. -/
theorem length_unfound_lt {found : List nfa.NodeSet} {label : nfa.NodeSet}
    (h : nfa.freshSuccessors found label ≠ []) :
    (unfound (found ++ nfa.freshSuccessors found label)).length < (unfound found).length := by
  obtain ⟨l, hl⟩ := List.exists_mem_of_ne_nil _ h
  have hnot : l ∉ found := by
    simp only [Nfa.freshSuccessors, List.mem_eraseDups, List.mem_filter, decide_eq_true_eq] at hl
    exact hl.2
  exact length_unfound_append_lt hl hnot

/-- **Expands labels until none is left to be expanded**; returns the labels
found, in the order of their discovery. -/
def run (e : Exploration nfa) : List nfa.NodeSet :=
  match _h : e.work with
  | [] => e.found
  | label :: rest => (expand e.found rest label).run
-- while labels are found, those that join the work list are no more than the symbols
termination_by (alphabetSize + 1) * (unfound e.found).length + e.work.length
decreasing_by
  rw [_h]
  by_cases hf : nfa.freshSuccessors e.found label = []
  · simp only [expand, hf, List.append_nil, List.reverse_nil, List.nil_append]
    exact Nat.add_lt_add_left (Nat.lt_succ_self _) _
  · have hless := length_unfound_lt hf
    have hfresh := length_freshSuccessors_le e.found label
    simp only [expand, List.length_append, List.length_reverse, List.length_cons]
    unfold alphabetSize at hfresh ⊢
    omega

theorem length_found_le_length_run (e : Exploration nfa) : e.found.length ≤ e.run.length := by
  fun_induction run e with
  | case1 => exact Nat.le_refl _
  | case2 e label rest _ ih =>
      refine Nat.le_trans ?_ ih
      simp [expand]

end Exploration

/-! ## §3. The automaton. -/

namespace Nfa

variable (nfa : Nfa)

/-- The labels of the deterministic automaton, in the order of their
discovery. -/
def labels : List nfa.NodeSet := (Exploration.start nfa).run

theorem length_labels_pos : 0 < nfa.labels.length :=
  Nat.lt_of_lt_of_le (by simp [Exploration.start]) (Exploration.length_found_le_length_run _)

/-- Where a label leads on each symbol, as positions in a list of labels. -/
def transitionsOf (labels : List nfa.NodeSet) (label : nfa.NodeSet) :
    Transitions labels.length :=
  alphabet.foldl (fun ts a =>
    match (nfa.successor label a).bind labels.finIdxOf? with
    | none => ts
    | some target => ts.record target (BitSet.ofList [a])) []

/-- The state that stands for one of these labels. -/
def stateOf (labels : List nfa.NodeSet) (i : Fin labels.length) :
    State nfa.size labels.length where
  label := labels.get i
  id := i
  index := i
  block := 0
  accepting := nfa.isAccepting (labels.get i)
  transitions := nfa.transitionsOf labels (labels.get i)

/-- The deterministic automaton with these labels. -/
def ofLabels (labels : List nfa.NodeSet) (h : 0 < labels.length) : Dfa where
  capacity := nfa.size
  size := labels.length
  states := Vector.ofFn (nfa.stateOf labels)
  size_pos := h

theorem state_ofLabels (labels : List nfa.NodeSet) (h : 0 < labels.length)
    (i : Fin labels.length) : (nfa.ofLabels labels h).state i = nfa.stateOf labels i := by
  exact Vector.getElem_ofFn i.isLt

/-- **The deterministic automaton of an automaton.** -/
def determinize : Dfa := nfa.ofLabels nfa.labels nfa.length_labels_pos

/-- A state that stands for the closure of a set of nodes and leads nowhere. -/
def closureState (s : nfa.NodeSet) : State nfa.size 0 where
  label := nfa.close s
  id := 0
  index := 0
  block := 0
  accepting := nfa.isAccepting (nfa.close s)
  transitions := []

end Nfa

end LineScan
