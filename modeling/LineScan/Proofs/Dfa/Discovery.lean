/-
  LineScan.Proofs.Dfa.Discovery
  ─────────────────────────────
  **EVERY STATE IS EXPANDED ONCE.**

  `Survey` is the construction of the deterministic automaton as one loop: the
  state on top of the work list is followed symbol by symbol, a set of nodes
  is compared with the labels of the states there are, a set that is new
  becomes a state and joins the work list, and the transition is recorded at
  once.  Nothing bounds the loop; `Explores` has a derivation for every run
  that ends, with the positions that were taken off the work list.

  The labels found are those of `Exploration.run`, which ends, and the work
  lists agree (`Surveys`).  At every moment each position has either been
  expanded or waits, never both and never twice: expanding one moves it, and
  a position joins the work list when its state arises.  When nothing waits
  any more, the positions expanded are all positions, and every transition
  recorded on the way is one of the finished automaton, since labels once
  found keep their positions (`Grows.expanded`).
-/
import LineScan.Proofs.BitSet
import LineScan.Proofs.Dfa.Reachable
import LineScan.Proofs.Plain.Subset
import Mathlib.Algebra.Ring.Nat

namespace LineScan

/-! ## §1. Sets and lists of sets. -/

/-- **Sets of one capacity with the same members are equal.** -/
theorem BitSet.same_iff {c : Nat} {s t : BitSet c} : s.same t = true ↔ s = t := by
  rw [same_iff_contains]
  constructor
  · intro h
    exact ext fun i => h i
  · rintro rfl m
    rfl

/-- The sets of a list that are not among those found, each once. -/
def freshAmong {c : Nat} (found sets : List (BitSet c)) : List (BitSet c) :=
  (sets.filter fun l => !found.contains l).eraseDups

section
variable {c : Nat} {found sets labels labels' : List (BitSet c)} {l : BitSet c}

theorem mem_append_freshAmong :
    l ∈ found ++ freshAmong found sets ↔ l ∈ found ∨ l ∈ sets := by
  rw [List.mem_append, freshAmong, List.mem_eraseDups, List.mem_filter]
  by_cases h : l ∈ found <;> simp [h]

theorem freshAmong_concat_of_mem (h : l ∈ found ++ freshAmong found sets) :
    freshAmong found (sets ++ [l]) = freshAmong found sets := by
  unfold freshAmong at h ⊢
  rw [List.filter_append, List.eraseDups_append]
  by_cases hl : l ∈ found
  · simp [hl, List.removeAll]
  · have hmem : l ∈ sets := (mem_append_freshAmong.1 h).resolve_left hl
    simp [hl, hmem, List.removeAll]

theorem freshAmong_concat_of_not_mem (h : l ∉ found ++ freshAmong found sets) :
    freshAmong found (sets ++ [l]) = freshAmong found sets ++ [l] := by
  rw [mem_append_freshAmong, not_or] at h
  unfold freshAmong
  rw [List.filter_append, List.eraseDups_append]
  simp [h.1, h.2, List.removeAll, List.eraseDups_cons]

/-- A set keeps its position when the list grows. -/
theorem idxOf?_of_beginning {i : Nat} (hbegins : labels <+: labels')
    (h : labels.idxOf? l = some i) : labels'.idxOf? l = some i := by
  obtain ⟨rest, he⟩ := hbegins
  unfold List.idxOf? at h ⊢
  rw [← he, List.findIdx?_append, h]
  rfl

theorem idxOf?_concat_of_not_mem (h : l ∉ labels) :
    (labels ++ [l]).idxOf? l = some labels.length := by
  have hnone : labels.findIdx? (· == l) = none := List.idxOf?_eq_none_iff.2 h
  unfold List.idxOf?
  rw [List.findIdx?_append, hnone]
  simp

end

/-- What expanding a label adds are its successors that are new. -/
theorem Nfa.freshSuccessors_eq (nfa : Nfa) (found : List nfa.NodeSet) (label : nfa.NodeSet) :
    nfa.freshSuccessors found label = freshAmong found (nfa.successors label) := by
  simp [freshSuccessors, freshAmong]

/-! ## §2. The loop. -/

/-- A state that has just been found: numbered, and without transitions. -/
def Nfa.newState (nfa : Nfa) (i : Nat) (label : nfa.NodeSet) : PlainState nfa.size where
  label := label
  id := i
  index := 0
  block := 0
  accepting := nfa.isAccepting label
  transitions := []

/-- The states found so far, and the positions of those that wait to be
expanded, the next one first. -/
structure Survey (nfa : Nfa) where
  /-- The states, in the order of their discovery. -/
  states : List (PlainState nfa.size)
  /-- The positions of the states to be expanded. -/
  work : List Nat

namespace Survey

variable {nfa : Nfa} {s s' : Survey nfa} {label l : nfa.NodeSet} {current i : Nat}
  {as : List Symbol} {a : Symbol}

/-- Only the first state has been found. -/
def start (nfa : Nfa) : Survey nfa := ⟨[nfa.newState 0 nfa.initial], [0]⟩

/-- Adds a state, which waits to be expanded. -/
def add (s : Survey nfa) (l : nfa.NodeSet) : Survey nfa where
  states := s.states ++ [nfa.newState s.states.length l]
  work := s.states.length :: s.work

/-- The position of the state with a label, which is added if there is none. -/
def locate (s : Survey nfa) (l : nfa.NodeSet) : Survey nfa × Nat :=
  match s.states.findIdx? fun state => state.label.same l with
  | some i => (s, i)
  | none => (s.add l, s.states.length)

/-- Records that a symbol leads from the state at `current` to the one at
`target`. -/
def record (s : Survey nfa) (current target : Nat) (a : Symbol) : Survey nfa where
  states := s.states.modify current fun state =>
    { state with
      transitions := PlainTransition.record target (BitSet.ofList [a]) state.transitions }
  work := s.work

/-- Follows a symbol from the state at `current`. -/
def visit (current : Nat) (label : nfa.NodeSet) (s : Survey nfa) (a : Symbol) : Survey nfa :=
  match nfa.successor label a with
  | none => s
  | some l =>
      let (s', target) := s.locate l
      s'.record current target a

/-- **Expands a state**: follows every symbol in turn. -/
def expand (s : Survey nfa) (current : Nat) (label : nfa.NodeSet) : Survey nfa :=
  alphabet.foldl (visit current label) s

/-- **Expanding states until none waits**, with the positions taken off the
work list, in order. -/
inductive Explores : Survey nfa → List Nat → Survey nfa → Prop
  /-- No state waits. -/
  | ends {s : Survey nfa} (hwork : s.work = []) : Explores s [] s
  /-- The next position is taken off, and the state there is expanded. -/
  | pops {s s' : Survey nfa} {current : Nat} {rest popped : List Nat}
      {state : PlainState nfa.size} (hwork : s.work = current :: rest)
      (hstate : s.states[current]? = some state)
      (next : Explores (expand ⟨s.states, rest⟩ current state.label) popped s') :
      Explores s (current :: popped) s'

/-- A run that ends leaves no choice. -/
theorem Explores.unique {t : Survey nfa} {popped popped' : List Nat}
    (h : Explores s popped s') (h' : Explores s popped' t) : popped' = popped ∧ t = s' := by
  induction h generalizing popped' with
  | ends hwork =>
      cases h' with
      | ends => exact ⟨rfl, rfl⟩
      | pops hwork' => exact absurd (hwork.symm.trans hwork') (List.cons_ne_nil _ _).symm
  | pops hwork hstate next ih =>
      cases h' with
      | ends hwork' => exact absurd (hwork.symm.trans hwork') (List.cons_ne_nil _ _)
      | pops hwork' hstate' next' =>
          -- the same position is on top, and the same state is there
          obtain ⟨rfl, rfl⟩ := List.cons.inj (hwork.symm.trans hwork')
          obtain rfl := Option.some.inj (hstate.symm.trans hstate')
          obtain ⟨rfl, rfl⟩ := ih next'
          exact ⟨rfl, rfl⟩

/-- The states with their positions filled in. -/
def numbered (s : Survey nfa) : List (PlainState nfa.size) :=
  s.states.mapIdx fun i state => { state with index := i }

/-- The labels of the states. -/
def labels (s : Survey nfa) : List nfa.NodeSet := s.states.map (·.label)

/-! ## §3. One symbol. -/

theorem length_labels (s : Survey nfa) : s.labels.length = s.states.length := List.length_map _

theorem findIdx?_same (s : Survey nfa) (l : nfa.NodeSet) :
    (s.states.findIdx? fun state => state.label.same l) = s.labels.idxOf? l := by
  unfold labels List.idxOf?
  rw [List.findIdx?_map]
  congr 1
  funext state
  rw [Bool.eq_iff_iff, BitSet.same_iff, Function.comp_apply, beq_iff_eq]

theorem labels_record (s : Survey nfa) (current target : Nat) (a : Symbol) :
    (s.record current target a).labels = s.labels := by
  apply List.ext_getElem?
  intro i
  unfold labels record
  rw [List.getElem?_map, List.getElem?_map, List.getElem?_modify]
  cases s.states[i]? with
  | none => rfl
  | some state =>
      show some (ite _ _ _ : PlainState nfa.size).label = some state.label
      split <;> rfl

theorem length_record (s : Survey nfa) (current target : Nat) (a : Symbol) :
    (s.record current target a).states.length = s.states.length := List.length_modify ..

theorem getElem?_record_self (s : Survey nfa) (current target : Nat) (a : Symbol) :
    (s.record current target a).states[current]? = (s.states[current]?).map fun state =>
      { state with
        transitions := PlainTransition.record target (BitSet.ofList [a]) state.transitions } := by
  unfold record
  rw [List.getElem?_modify]
  simp only [if_true]
  rfl

theorem getElem?_record_of_ne (s : Survey nfa) (target : Nat) (a : Symbol) (h : i ≠ current) :
    (s.record current target a).states[i]? = s.states[i]? := by
  unfold record
  rw [List.getElem?_modify]
  simp only [if_neg (Ne.symm h)]
  exact Option.map_id'

theorem labels_add (s : Survey nfa) (l : nfa.NodeSet) : (s.add l).labels = s.labels ++ [l] := by
  unfold labels add
  rw [List.map_append]
  rfl

theorem locate_of_idxOf? (h : s.labels.idxOf? l = some i) : s.locate l = (s, i) := by
  unfold locate
  rw [findIdx?_same, h]

theorem locate_of_not_mem (h : l ∉ s.labels) : s.locate l = (s.add l, s.states.length) := by
  unfold locate
  rw [findIdx?_same, List.idxOf?_eq_none_iff.2 h]

/-! ## §4. One state. -/

/-- What one symbol adds to the transitions of a state, when labels have
these positions. -/
def recordAt (labels : List nfa.NodeSet) (label : nfa.NodeSet) (ts : List PlainTransition)
    (a : Symbol) : List PlainTransition :=
  match (nfa.successor label a).bind labels.idxOf? with
  | none => ts
  | some target => PlainTransition.record target (BitSet.ofList [a]) ts

theorem recordAt_of_none {labels : List nfa.NodeSet} {ts : List PlainTransition}
    (h : nfa.successor label a = none) : recordAt labels label ts a = ts := by
  unfold recordAt
  rw [h]
  rfl

theorem recordAt_of_some {labels : List nfa.NodeSet} {ts : List PlainTransition}
    (h : nfa.successor label a = some l) (hi : labels.idxOf? l = some i) :
    recordAt labels label ts a = PlainTransition.record i (BitSet.ofList [a]) ts := by
  unfold recordAt
  rw [h, Option.bind_some, hi]

/-- All symbols together add the transitions of the finished state. -/
theorem foldl_recordAt (labels : List nfa.NodeSet) (label : nfa.NodeSet) :
    alphabet.foldl (recordAt labels label) [] =
      (nfa.transitionsOf labels label).map Transition.plain := by
  unfold Nfa.transitionsOf
  show List.foldl (recordAt labels label)
    (List.map Transition.plain ([] : Transitions labels.length)) alphabet = _
  refine List.foldl_hom (List.map Transition.plain) ?_
  intro ts a
  have htarget : (nfa.successor label a).bind labels.idxOf? =
      ((nfa.successor label a).bind labels.finIdxOf?).map Fin.val := by
    rw [Option.map_bind]
    congr 1
    funext l
    exact List.idxOf?_eq_map_finIdxOf?_val
  unfold recordAt
  rw [htarget]
  cases (nfa.successor label a).bind labels.finIdxOf? with
  | none => rfl
  | some target => exact PlainTransition.record_map_plain target _ ts

/-- **What following symbols from one state does** to a survey, when they
lead to these sets. -/
structure Grows (current : Nat) (label : nfa.NodeSet) (as : List Symbol) (sets : List nfa.NodeSet)
    (s s' : Survey nfa) : Prop where
  /-- The sets not found before become labels, each once. -/
  labels : s'.labels = s.labels ++ freshAmong s.labels sets
  /-- Their states wait, and the one found last waits on top. -/
  work : ∃ n, s'.states.length = s.states.length + n ∧
    s'.work = (List.range' s.states.length n).reverse ++ s.work
  /-- The other states are as they were. -/
  old : ∀ i < s.states.length, i ≠ current → s'.states[i]? = s.states[i]?
  /-- The new states have no transitions. -/
  fresh : ∀ i, s.states.length ≤ i → s'.states[i]? = (s'.labels[i]?).map (nfa.newState i)
  /-- The state has the transitions of the symbols followed, for any list that
  the labels may still become. -/
  expanded : ∀ labels, s'.labels <+: labels →
    s'.states[current]? = (s.states[current]?).map fun state =>
      { state with transitions := as.foldl (recordAt labels label) state.transitions }

variable {sets : List nfa.NodeSet}

theorem Grows.refl (current : Nat) (label : nfa.NodeSet) (s : Survey nfa) :
    Grows current label [] [] s s where
  labels := (List.append_nil _).symm
  work := ⟨0, rfl, rfl⟩
  old _ _ _ := rfl
  fresh i hi := by
    rw [List.getElem?_eq_none hi, List.getElem?_eq_none (by rwa [length_labels])]
    rfl
  expanded labels _ := Option.map_id'.symm

/-- Looking up one set more. -/
theorem Grows.locate (h : Grows current label as sets s s') (hcurrent : current < s.states.length)
    (l : nfa.NodeSet) :
    Grows current label as (sets ++ [l]) s (s'.locate l).1 ∧
      (s'.locate l).1.labels.idxOf? l = some (s'.locate l).2 := by
  cases hi : s'.labels.idxOf? l with
  | some i =>
      have hmem : l ∈ s'.labels := by
        by_contra hl
        rw [List.idxOf?_eq_none_iff.2 hl] at hi
        cases hi
      rw [locate_of_idxOf? hi]
      rw [h.labels] at hmem
      exact ⟨{ h with labels := by rw [freshAmong_concat_of_mem hmem]; exact h.labels }, hi⟩
  | none =>
      have hl : l ∉ s'.labels := List.idxOf?_eq_none_iff.1 hi
      obtain ⟨n, hlength, hwork⟩ := h.work
      have hold : ∀ i < s'.states.length, (s'.add l).states[i]? = s'.states[i]? :=
        fun i hlt => List.getElem?_append_left hlt
      rw [locate_of_not_mem hl]
      refine ⟨⟨?_, ?_, ?_, ?_, ?_⟩, ?_⟩
      · rw [h.labels] at hl
        rw [labels_add, freshAmong_concat_of_not_mem hl, ← List.append_assoc, ← h.labels]
      · -- the state added waits on top of those that were added before it
        refine ⟨n + 1, ?_, ?_⟩
        · show (s'.states ++ [_]).length = _
          rw [List.length_append, hlength]
          rfl
        · show s'.states.length :: s'.work = _
          rw [hwork, hlength, List.range'_concat, List.reverse_append, Nat.one_mul]
          rfl
      · intro i hlt hne
        rw [hold i (by omega), h.old i hlt hne]
      · intro i hle
        rcases Nat.lt_or_ge i s'.states.length with hlt | hge
        · rw [hold i hlt, h.fresh i hle, labels_add,
            List.getElem?_append_left (by rwa [length_labels])]
        · rw [labels_add, List.getElem?_append_right (by rwa [length_labels]), length_labels]
          show (s'.states ++ [_])[i]? = _
          rw [List.getElem?_append_right hge]
          rcases Nat.eq_or_lt_of_le hge with heq | hlt
          · rw [← heq, Nat.sub_self]
            rfl
          · rw [List.getElem?_eq_none (by simpa using by omega),
              List.getElem?_eq_none (by simpa using by omega)]
            rfl
      · intro labels hbegins
        rw [hold current (by omega)]
        rw [labels_add] at hbegins
        exact h.expanded labels ((List.prefix_append _ _).trans hbegins)
      · rw [labels_add, idxOf?_concat_of_not_mem hl, length_labels]

/-- Recording where one symbol more leads. -/
theorem Grows.record (h : Grows current label as sets s s') (hcurrent : current < s.states.length)
    (hl : nfa.successor label a = some l) (hi : s'.labels.idxOf? l = some i) :
    Grows current label (as ++ [a]) sets s (s'.record current i a) where
  labels := by rw [labels_record, h.labels]
  work := by rw [length_record]; exact h.work
  old j hlt hne := by rw [getElem?_record_of_ne _ _ _ hne, h.old j hlt hne]
  fresh j hle := by
    have hne : j ≠ current := by omega
    rw [getElem?_record_of_ne _ _ _ hne, labels_record, h.fresh j hle]
  expanded labels hbegins := by
    rw [labels_record] at hbegins
    rw [getElem?_record_self, h.expanded labels hbegins, Option.map_map]
    congr 1
    funext state
    rw [List.foldl_concat, recordAt_of_some hl (idxOf?_of_beginning hbegins hi)]
    rfl

/-- **Following one symbol more.** -/
theorem Grows.visit (h : Grows current label as (as.filterMap (nfa.successor label)) s s')
    (hcurrent : current < s.states.length) (a : Symbol) :
    Grows current label (as ++ [a]) ((as ++ [a]).filterMap (nfa.successor label)) s
      (s'.visit current label a) := by
  rw [List.filterMap_append]
  cases hl : nfa.successor label a with
  | none =>
      have hvisit : s'.visit current label a = s' := by
        unfold Survey.visit
        rw [hl]
      rw [hvisit, List.filterMap_cons_none hl, List.filterMap_nil, List.append_nil]
      refine { h with expanded := fun labels hbegins => ?_ }
      simp only [List.foldl_concat, recordAt_of_none hl]
      exact h.expanded labels hbegins
  | some l =>
      have hvisit : s'.visit current label a =
          (s'.locate l).1.record current (s'.locate l).2 a := by
        unfold Survey.visit
        rw [hl]
      obtain ⟨hlocate, hi⟩ := h.locate hcurrent l
      rw [hvisit, List.filterMap_cons_some hl, List.filterMap_nil]
      exact hlocate.record hcurrent hl hi

/-- **Following all symbols.** -/
theorem grows_expand (hcurrent : current < s.states.length) (label : nfa.NodeSet) :
    Grows current label alphabet (nfa.successors label) s (s.expand current label) := by
  have hall : ∀ as : List Symbol,
      Grows current label as (as.filterMap (nfa.successor label)) s
        (as.foldl (Survey.visit current label) s) := by
    intro as
    induction as using List.reverseRecOn with
    | nil => exact Grows.refl current label s
    | append_singleton as a ih =>
        rw [List.foldl_concat]
        exact ih.visit hcurrent a
  exact hall alphabet

/-! ## §5. All states. -/

/-- The state that is made of a label at a position when all labels are
known. -/
def finished (labels : List nfa.NodeSet) (i : Nat) (l : nfa.NodeSet) : PlainState nfa.size :=
  { nfa.newState i l with transitions := (nfa.transitionsOf labels l).map Transition.plain }

theorem plain_stateOf (labels : List nfa.NodeSet) (i : Fin labels.length) :
    (nfa.stateOf labels i).plain = { finished labels i (labels.get i) with index := i } := by
  unfold State.plain Nfa.stateOf finished Nfa.newState
  rfl

/-- **A survey keeps step with an exploration.** -/
structure Surveys (e : Exploration nfa) (popped : List Nat) (s : Survey nfa) : Prop where
  /-- The same labels have been found. -/
  labels : s.labels = e.found
  /-- The same labels wait. -/
  work : s.work.map (s.labels[·]?) = e.work.map some
  /-- Every position has been taken off once, or waits once. -/
  once : (popped ++ s.work).Perm (List.range s.states.length)
  /-- A state that waits has no transitions. -/
  waiting : ∀ i ∈ s.work, s.states[i]? = (s.labels[i]?).map (nfa.newState i)
  /-- A state that was taken off is finished, for any list that the labels may
  still become. -/
  expanded : ∀ i ∈ popped, ∀ labels, s.labels <+: labels →
    s.states[i]? = (s.labels[i]?).map (finished labels i)

theorem surveys_start (nfa : Nfa) : Surveys (Exploration.start nfa) [] (start nfa) where
  labels := rfl
  work := rfl
  once := .refl _
  waiting i hi := by
    rw [List.mem_singleton.1 hi]
    rfl
  expanded i hi := absurd hi List.not_mem_nil

variable {e : Exploration nfa} {popped : List Nat} {rest : List nfa.NodeSet}

/-- A label waits when its position does. -/
theorem Surveys.exists_top (h : Surveys e popped s) (hwork : e.work = label :: rest) :
    ∃ current waiting, s.work = current :: waiting ∧ s.labels[current]? = some label ∧
      waiting.map (s.labels[·]?) = rest.map some := by
  have hmap := h.work
  rw [hwork] at hmap
  cases hs : s.work with
  | nil =>
      rw [hs] at hmap
      cases hmap
  | cons current waiting =>
      rw [hs, List.map_cons, List.map_cons, List.cons.injEq] at hmap
      exact ⟨current, waiting, rfl, hmap⟩

variable {waiting : List Nat}

theorem Surveys.lt_length (h : Surveys e popped s) (hi : i ∈ popped ++ s.work) :
    i < s.states.length :=
  List.mem_range.1 (h.once.mem_iff.1 hi)

/-- A position on top of the work list is nowhere else. -/
theorem Surveys.not_mem_of_top (h : Surveys e popped s) (htop : s.work = current :: waiting) :
    current ∉ popped ∧ current ∉ waiting := by
  have hnodup := h.once.nodup_iff.2 List.nodup_range
  rw [htop] at hnodup
  obtain ⟨_, hwork, hdisjoint⟩ := List.nodup_append.1 hnodup
  refine ⟨fun hmem => ?_, (List.nodup_cons.1 hwork).1⟩
  exact hdisjoint current hmem current List.mem_cons_self rfl

/-- **Expanding the state on top** keeps step, and its position moves from
those that wait to those that were taken off. -/
theorem Surveys.expand (h : Surveys e popped s) (htop : s.work = current :: waiting)
    (hlabel : s.labels[current]? = some label)
    (hrest : waiting.map (s.labels[·]?) = rest.map some) :
    Surveys (Exploration.expand e.found rest label) (popped ++ [current])
      (Survey.expand ⟨s.states, waiting⟩ current label) := by
  obtain ⟨hpopped, hwaiting⟩ := h.not_mem_of_top htop
  have hlt : ∀ i ∈ popped ++ current :: waiting, i < s.states.length :=
    fun i hi => h.lt_length (htop ▸ hi)
  have hcurrent : current < s.states.length := hlt current (by simp)
  have hgrows : Grows current label alphabet (nfa.successors label) ⟨s.states, waiting⟩
      (Survey.expand ⟨s.states, waiting⟩ current label) :=
    grows_expand (show current < (⟨s.states, waiting⟩ : Survey nfa).states.length from hcurrent)
      label
  generalize Survey.expand ⟨s.states, waiting⟩ current label = s' at hgrows
  -- the labels there were stay where they are
  have hlabels : s'.labels = s.labels ++ nfa.freshSuccessors s.labels label := by
    rw [nfa.freshSuccessors_eq]
    exact hgrows.labels
  have hkept : ∀ i < s.states.length, s'.labels[i]? = s.labels[i]? := by
    intro i hi
    rw [hlabels, List.getElem?_append_left (by rwa [length_labels])]
  have hbegins : s.labels <+: s'.labels := hlabels ▸ List.prefix_append _ _
  obtain ⟨n, hlength, hwork⟩ : ∃ n, s'.states.length = s.states.length + n ∧
      s'.work = (List.range' s.states.length n).reverse ++ waiting := hgrows.work
  have hn : n = (nfa.freshSuccessors s.labels label).length := by
    have hcount := congrArg List.length hlabels
    rw [List.length_append, length_labels, length_labels, hlength] at hcount
    exact Nat.add_left_cancel hcount
  refine ⟨?_, ?_, ?_, ?_, ?_⟩
  · rw [hlabels, h.labels]
    rfl
  · rw [hwork, hlabels, ← length_labels, hn, List.map_append, List.map_reverse,
      map_range'_getElem?_append, map_getElem?_append hrest, h.labels]
    show _ = ((nfa.freshSuccessors e.found label).reverse ++ rest).map some
    rw [List.map_append, List.map_reverse]
  · have honce := h.once
    rw [htop] at honce
    rw [hwork, hlength]
    generalize s.states.length = k at honce ⊢
    calc popped ++ [current] ++ ((List.range' k n).reverse ++ waiting)
      _ |>.Perm (popped ++ [current] ++ (waiting ++ List.range' k n)) :=
        (((List.reverse_perm _).append_right _).trans List.perm_append_comm).append_left _
      _ = popped ++ current :: waiting ++ List.range' k n := by
        simp only [List.append_assoc, List.cons_append, List.nil_append]
      _ |>.Perm (List.range k ++ List.range' k n) := honce.append_right _
      _ = List.range (k + n) := by
        rw [List.range_eq_range', List.range_eq_range', ← List.range'_append_1, Nat.zero_add]
  · intro i hi
    rw [hwork, List.mem_append, List.mem_reverse, List.mem_range'_1] at hi
    rcases hi with hnew | hold
    · exact hgrows.fresh i hnew.1
    · have hi := hlt i (by simp [hold])
      rw [hgrows.old i hi (fun heq => hwaiting (heq ▸ hold)), hkept i hi]
      exact h.waiting i (htop ▸ List.mem_cons_of_mem _ hold)
  · intro i hi labels hlabels'
    rcases List.mem_append.1 hi with hold | hnew
    · have hi := hlt i (List.mem_append_left _ hold)
      rw [hgrows.old i hi (fun heq => hpopped (heq ▸ hold)), hkept i hi]
      exact h.expanded i hold labels (hbegins.trans hlabels')
    · -- all symbols have been recorded where there was no transition yet
      rw [List.mem_singleton.1 hnew, hgrows.expanded labels hlabels', hkept current hcurrent]
      show (s.states[current]?).map _ = _
      rw [h.waiting current (htop ▸ List.mem_cons_self), hlabel]
      show some { nfa.newState current label with
        transitions := alphabet.foldl (recordAt labels label) [] } = _
      rw [foldl_recordAt]
      rfl

/-- **The loop ends** where the exploration does, with every position taken
off once. -/
theorem Surveys.run (h : Surveys e popped s) :
    ∃ popped' s', Explores s popped' s' ∧ Surveys ⟨e.run, []⟩ (popped ++ popped') s' := by
  fun_induction Exploration.run e generalizing popped s with
  | case1 e hwork =>
      have hs : s.work = [] := by
        have hmap := h.work
        rwa [hwork, List.map_nil, List.map_eq_nil_iff] at hmap
      refine ⟨[], s, .ends hs, ?_⟩
      obtain ⟨found, work⟩ := e
      cases hwork
      rwa [List.append_nil]
  | case2 e label rest hwork ih =>
      obtain ⟨current, waiting, htop, hlabel, hrest⟩ := h.exists_top hwork
      have hstate : s.states[current]? = some (nfa.newState current label) := by
        rw [h.waiting current (htop ▸ List.mem_cons_self), hlabel]
        rfl
      obtain ⟨popped', s', hexplores, hs'⟩ := ih (h.expand htop hlabel hrest)
      rw [List.append_assoc] at hs'
      exact ⟨current :: popped', s', .pops htop hstate hexplores, hs'⟩

/-- When nothing waits, every state is finished. -/
theorem Surveys.numbered_eq (h : Surveys e popped s) (hdrained : s.work = []) :
    s.numbered = (List.finRange s.labels.length).map fun i => (nfa.stateOf s.labels i).plain := by
  have honce := h.once
  rw [hdrained, List.append_nil] at honce
  unfold numbered
  refine List.ext_getElem (by simp [length_labels]) fun i hi hi' => ?_
  have hpos : i < s.states.length := by rwa [List.length_mapIdx] at hi
  have hlabel : i < s.labels.length := by rwa [length_labels]
  have hstate := h.expanded i (honce.mem_iff.2 (List.mem_range.2 hpos)) s.labels
    (List.prefix_refl _)
  rw [List.getElem?_eq_getElem hpos, List.getElem?_eq_getElem hlabel, Option.map_some,
    Option.some.injEq] at hstate
  rw [List.getElem_mapIdx, hstate, List.getElem_map, List.getElem_finRange]
  exact (plain_stateOf s.labels ⟨i, hlabel⟩).symm

end Survey

/-! ## §6. The deterministic automaton. -/

namespace Nfa

variable (nfa : Nfa)

/-- **There are fewer states than sets of nodes**: their labels are different,
and none of them is empty. -/
theorem size_determinize_lt : nfa.determinize.size < 2 ^ nfa.size := by
  obtain ⟨hnodup, hlabels⟩ := (Exploration.sound_start nfa).run
  have hempty : BitSet.empty nfa.size ∉ nfa.labels := by
    intro hmem
    obtain ⟨i, hi⟩ := (hlabels _ hmem).1.nonempty
    rw [BitSet.contains_empty] at hi
    cases hi
  have hall : (BitSet.empty nfa.size :: nfa.labels).Nodup := List.nodup_cons.2 ⟨hempty, hnodup⟩
  have hle := hall.length_le_of_subset fun l _ => Exploration.mem_allLabels l
  rw [List.length_cons, Exploration.allLabels, List.length_map, List.length_range] at hle
  exact hle

/-- **How the construction of the deterministic automaton ends.** -/
structure Constructs (nfa : Nfa) (popped : List Nat) (s : Survey nfa) : Prop where
  /-- The loop ends, after these positions were taken off the work list. -/
  explores : Survey.Explores (Survey.start nfa) popped s
  /-- It cannot end in another way. -/
  only : ∀ popped' s', Survey.Explores (Survey.start nfa) popped' s' → popped' = popped ∧ s' = s
  /-- Nothing waits. -/
  drained : s.work = []
  /-- Every state was taken off, and expanded, once. -/
  once : popped.Perm (List.range nfa.determinize.size)
  /-- The states are those of the deterministic automaton. -/
  states : s.numbered = nfa.determinize.plain.states
  /-- There are fewer of them than sets of nodes. -/
  size_le : nfa.determinize.size ≤ 2 ^ nfa.size - 1
  /-- A label is closed, holds a node, and holds nodes only. -/
  label : ∀ i, nfa.IsLabel (nfa.labelOf i) ∧
    ∀ k, (nfa.labelOf i).contains k = true → k < nfa.size
  /-- No two states have the same label. -/
  distinct : Function.Injective nfa.labelOf

/-- **The construction of the deterministic automaton ends**, for every
automaton, and has then expanded every state once. -/
theorem exists_constructs : ∃ popped s, nfa.Constructs popped s := by
  obtain ⟨popped, s, hexplores, hs⟩ := (Survey.surveys_start nfa).run
  rw [List.nil_append] at hs
  have hlabels : s.labels = nfa.labels := hs.labels
  have hlength : s.states.length = nfa.determinize.size := by
    rw [← Survey.length_labels, hlabels]
    rfl
  have hdrained : s.work = [] := List.map_eq_nil_iff.1 hs.work
  have honce := hs.once
  rw [hdrained, List.append_nil, hlength] at honce
  have hlt := nfa.size_determinize_lt
  refine ⟨popped, s, hexplores, fun _ _ => hexplores.unique, hdrained, honce, ?_, by omega,
    fun i => ⟨?_, ?_⟩, nfa.labelOf_injective⟩
  · rw [states_plain_determinize, hs.numbered_eq hdrained, hlabels]
  · exact (nfa.labelOf_spec i).1
  · intro k hk
    exact BitSet.lt_of_contains hk

end Nfa

end LineScan
