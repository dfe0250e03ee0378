/-
  LineScan.Proofs.Plain.Subset
  ────────────────────────────
  **FINDING STATES BY THEIR NUMBERS.**

  Exploration with a work list of positions: a label is looked up among the
  labels found before it is followed.  The states of the result refer to each
  other by plain numbers, and the symbols of their transitions are inserted
  one by one.

  A position on the work list is below the number of labels found, and labels
  are only ever added; so the same labels are expanded in the same order as
  by `Exploration.run`, and no access fails.
-/
import LineScan.Dfa.Subset
import LineScan.Proofs.Plain.Nodes
import Mathlib.Data.List.FinRange

namespace LineScan

/-! ## §1. Automata with plain references. -/

/-- All symbols of one state that lead to the same target. -/
structure PlainTransition where
  /-- Where the symbols lead. -/
  target : Nat
  /-- The symbols. -/
  symbols : SymbolSet

/-- A state with plain references. -/
structure PlainState (capacity : Nat) where
  /-- The nodes that the state stands for. -/
  label : BitSet capacity
  /-- The number that the state's name is read from. -/
  id : Nat
  /-- The state's position. -/
  index : Nat
  /-- The number of the block of states that the state was made from. -/
  block : Nat
  /-- Whether a run may stop here. -/
  accepting : Bool
  /-- Where the symbols lead. -/
  transitions : List PlainTransition

/-- A deterministic automaton with plain references. -/
structure PlainDfa where
  /-- The capacity of the labels. -/
  capacity : Nat
  /-- The states. -/
  states : List (PlainState capacity)

/-- A group of transitions with its target as a plain number. -/
def Transition.plain {size : Nat} (t : Transition size) : PlainTransition := ⟨t.target, t.symbols⟩

/-- A state with the targets of its transitions as plain numbers. -/
def State.plain {capacity size : Nat} (s : State capacity size) : PlainState capacity where
  label := s.label
  id := s.id
  index := s.index
  block := s.block
  accepting := s.accepting
  transitions := s.transitions.map Transition.plain

/-- An automaton with all targets as plain numbers. -/
@[reducible]
def Dfa.plain (d : Dfa) : PlainDfa := ⟨d.capacity, d.states.toList.map State.plain⟩

theorem Dfa.states_plain (d : Dfa) :
    d.plain.states = (List.finRange d.size).map fun i => (d.state i).plain := by
  show d.states.toList.map State.plain = _
  rw [d.toList_states, List.map_map]
  rfl

namespace PlainTransition

/-- Adds symbols that lead to `target`: to the group of that target if there
is one, else as a new last group. -/
def record (target : Nat) (symbols : SymbolSet) : List PlainTransition → List PlainTransition
  | [] => [⟨target, symbols⟩]
  | t :: rest =>
      if t.target = target then ⟨t.target, t.symbols.union symbols⟩ :: rest
      else t :: record target symbols rest

theorem record_map_plain {size : Nat} (target : Fin size) (symbols : SymbolSet)
    (ts : Transitions size) :
    record target symbols (ts.map Transition.plain) =
      (Transitions.record target symbols ts).map Transition.plain := by
  induction ts with
  | nil => rfl
  | cons t rest ih =>
      rw [List.map_cons, record, Transitions.record]
      by_cases h : t.target = target
      · have hplain : t.plain.target = target := congrArg Fin.val h
        rw [if_pos h, if_pos hplain]
        rfl
      · have hplain : t.plain.target ≠ target := fun he => h (Fin.ext he)
        rw [if_neg h, if_neg hplain, ih]
        rfl

/-- Adds symbols as `record` does, to a group there is member by member. -/
def record? (target : Nat) (symbols : SymbolSet) :
    List PlainTransition → Except Fault (List PlainTransition)
  | [] => .ok [⟨target, symbols⟩]
  | t :: rest =>
      if t.target = target then do
        let all ← t.symbols.union? symbols
        return ⟨t.target, all⟩ :: rest
      else do
        let rest ← record? target symbols rest
        return t :: rest

/-- Symbols always fit into a set of symbols. -/
theorem record?_eq_record (target : Nat) (symbols : SymbolSet) (ts : List PlainTransition) :
    record? target symbols ts = .ok (record target symbols ts) := by
  induction ts with
  | nil => rfl
  | cons t rest ih =>
      unfold record? record
      split
      · rw [BitSet.union?_eq_union]
        rfl
      · rw [ih]
        rfl

theorem record?_map_plain {size : Nat} (target : Fin size) (symbols : SymbolSet)
    (ts : Transitions size) :
    record? target symbols (ts.map Transition.plain) =
      .ok ((Transitions.record target symbols ts).map Transition.plain) := by
  rw [record?_eq_record, record_map_plain]

end PlainTransition

/-! ## §2. Exploration. -/

theorem map_val_alphabet : alphabet.map Fin.val = List.range alphabetSize :=
  List.map_coe_finRange_eq_range

namespace PlainNodes

open Exploration (unfound length_unfound_append_lt)

variable {n : Nat} (nodes : Vector (Node Nat) n)

/-- The label reached from a label on a byte. -/
def successor? (label : BitSet n) (b : Nat) : Except Fault (Option (BitSet n)) := do
  match ← step? nodes label (UInt8.ofNat b) with
  | none => return none
  | some moved => return some (← close? nodes moved)

/-- The labels reached from a label and not found before, each once. -/
def freshSuccessors? (found : List (BitSet n)) (label : BitSet n) :
    Except Fault (List (BitSet n)) := do
  let successors ← (List.range alphabetSize).mapM (successor? nodes label)
  return (successors.reduceOption.filter fun l => decide (l ∉ found)).eraseDups

/-- Expands the label at position `current`, which has been taken from the
work list, of which `rest` is left. -/
def expand? (found : List (BitSet n)) (current : Nat) (rest : List Nat) :
    Except Fault (List (BitSet n) × List Nat) := do
  let label ← lookUp? found current
  let fresh ← freshSuccessors? nodes found label
  return (found ++ fresh, (List.range' found.length fresh.length).reverse ++ rest)

/-- Expanding a label leaves fewer labels to be found, or a shorter work
list. -/
theorem expand?_decreases {found found' : List (BitSet n)} {current : Nat} {rest work : List Nat}
    (h : expand? nodes found current rest = .ok (found', work)) :
    (unfound found').length < (unfound found).length ∨ found' = found ∧ work = rest := by
  unfold expand? freshSuccessors? at h
  cases hlabel : lookUp? found current with
  | error f =>
      rw [hlabel] at h
      cases h
  | ok label =>
      cases hloop : (List.range alphabetSize).mapM (successor? nodes label) with
      | error f =>
          rw [hlabel, ok_bind, hloop] at h
          cases h
      | ok successors =>
          rw [hlabel, ok_bind, hloop, ok_bind] at h
          cases h
          cases hfresh : (successors.reduceOption.filter fun l => decide (l ∉ found)).eraseDups with
          | nil => exact .inr ⟨List.append_nil _, rfl⟩
          | cons l fresh =>
              have hl : l ∈ (successors.reduceOption.filter fun l => decide (l ∉ found)).eraseDups :=
                hfresh ▸ List.mem_cons_self
              rw [List.mem_eraseDups, List.mem_filter, decide_eq_true_eq] at hl
              exact .inl (length_unfound_append_lt List.mem_cons_self hl.2)

/-- **Expands labels until none is left to be expanded.** -/
def explore? (found : List (BitSet n)) (work : List Nat) : Except Fault (List (BitSet n)) :=
  match work with
  | [] => .ok found
  | current :: rest =>
      match _h : expand? nodes found current rest with
      | .ok (found', work') => explore? found' work'
      | .error f => .error f
termination_by ((unfound found).length, work.length)
decreasing_by
  rcases expand?_decreases nodes _h with hlt | ⟨hfound, hwork⟩
  · exact Prod.Lex.left _ _ hlt
  · rw [hfound, hwork]
    exact Prod.Lex.right _ (Nat.lt_succ_self _)

/-! ## §3. The automaton. -/

/-- Where a label leads on each symbol, as positions in a list of labels. -/
def transitionsOf? (labels : List (BitSet n)) (label : BitSet n) :
    Except Fault (List PlainTransition) :=
  (List.range alphabetSize).foldlM
    (fun ts b => do
      match (← successor? nodes label b).bind labels.idxOf? with
      | none => return ts
      | some target => PlainTransition.record? target (← BitSet.ofList? alphabetSize [b]) ts)
    []

/-- The state that stands for the label at a position. -/
def stateAt? (labels : List (BitSet n)) (i : Nat) : Except Fault (PlainState n) := do
  let label ← lookUp? labels i
  let accepting ← isAccepting? nodes label
  let transitions ← transitionsOf? nodes labels label
  return { label, id := i, index := i, block := 0, accepting, transitions }

/-- **The deterministic automaton of the nodes.** -/
def determinize? (start : Nat) : Except Fault PlainDfa := do
  let initial ← close? nodes (← (BitSet.empty n).insert? start)
  let labels ← explore? nodes [initial] [0]
  let states ← (List.range labels.length).mapM (stateAt? nodes labels)
  return ⟨n, states⟩

end PlainNodes

namespace Nfa

open PlainNodes

variable (nfa : Nfa)

theorem successor?_plainNodes (label : nfa.NodeSet) (a : Symbol) :
    successor? nfa.plainNodes label a = .ok (nfa.successor label a) := by
  unfold successor? successor
  rw [step?_plainNodes, ok_bind]
  have hbyte : UInt8.ofNat a = a.toByte := rfl
  rw [hbyte]
  cases nfa.step label a.toByte with
  | none => rfl
  | some moved =>
      show (close? nfa.plainNodes moved >>= fun l => pure (some l)) = _
      rw [close?_plainNodes]
      rfl

theorem freshSuccessors?_plainNodes (found : List nfa.NodeSet) (label : nfa.NodeSet) :
    freshSuccessors? nfa.plainNodes found label = .ok (nfa.freshSuccessors found label) := by
  unfold freshSuccessors? freshSuccessors successors
  rw [← map_val_alphabet, mapM_map_eq_ok fun a _ => nfa.successor?_plainNodes label a, ok_bind,
    reduceOption_map_eq_filterMap]
  rfl

theorem explore?_plainNodes (e : Exploration nfa) (work : List Nat)
    (hwork : work.map (e.found[·]?) = e.work.map some) :
    explore? nfa.plainNodes e.found work = .ok e.run := by
  fun_induction Exploration.run e generalizing work with
  | case1 e he =>
      rw [he, List.map_nil, List.map_eq_nil_iff] at hwork
      rw [hwork, explore?]
  | case2 e label rest he ih =>
      rw [he] at hwork
      cases work with
      | nil => cases hwork
      | cons current work =>
          rw [List.map_cons, List.map_cons, List.cons.injEq] at hwork
          obtain ⟨hlabel, hrest⟩ := hwork
          have hexpand : expand? nfa.plainNodes e.found current work =
              .ok (e.found ++ nfa.freshSuccessors e.found label,
                (List.range' e.found.length (nfa.freshSuccessors e.found label).length).reverse ++
                  work) := by
            unfold expand?
            rw [lookUp?_of_getElem? hlabel, ok_bind, freshSuccessors?_plainNodes, ok_bind]
            rfl
          rw [explore?]
          split
          · next found' work' h =>
              rw [hexpand] at h
              cases h
              apply ih
              show ((List.range' e.found.length _).reverse ++ work).map
                ((e.found ++ nfa.freshSuccessors e.found label)[·]?) = (_ ++ rest).map some
              rw [List.map_append, List.map_reverse, map_range'_getElem?_append,
                map_getElem?_append hrest, List.map_append, List.map_reverse]
          · next f h =>
              rw [hexpand] at h
              cases h

theorem transitionsOf?_plainNodes (labels : List nfa.NodeSet) (label : nfa.NodeSet) :
    transitionsOf? nfa.plainNodes labels label =
      .ok ((nfa.transitionsOf labels label).map Transition.plain) := by
  unfold transitionsOf? transitionsOf
  rw [← map_val_alphabet, List.foldlM_map]
  refine foldlM_eq_ok (List.map Transition.plain) ?_ []
  intro ts a _
  rw [successor?_plainNodes, ok_bind]
  have htarget : (nfa.successor label a).bind labels.idxOf? =
      ((nfa.successor label a).bind labels.finIdxOf?).map Fin.val := by
    rw [Option.map_bind]
    congr 1
    funext l
    exact List.idxOf?_eq_map_finIdxOf?_val
  rw [htarget]
  cases (nfa.successor label a).bind labels.finIdxOf? with
  | none => rfl
  | some target =>
      have hsymbols : BitSet.ofList? alphabetSize [a.val] = .ok (BitSet.ofList [a]) :=
        BitSet.ofList?_map_val [a]
      show (BitSet.ofList? alphabetSize [a.val] >>= fun symbols =>
        PlainTransition.record? target symbols (ts.map Transition.plain)) = _
      rw [hsymbols, ok_bind, PlainTransition.record?_map_plain]

theorem stateAt?_plainNodes (labels : List nfa.NodeSet) (i : Fin labels.length) :
    stateAt? nfa.plainNodes labels i = .ok (nfa.stateOf labels i).plain := by
  have hlabel : lookUp? labels i = .ok (labels.get i) :=
    lookUp?_of_getElem? (List.getElem?_eq_getElem i.isLt)
  unfold stateAt?
  rw [hlabel, ok_bind, isAccepting?_plainNodes, ok_bind, transitionsOf?_plainNodes, ok_bind]
  rfl

/-- The states of the deterministic automaton with plain references. -/
theorem states_plain_determinize :
    nfa.determinize.plain.states =
      (List.finRange nfa.labels.length).map fun i => (nfa.stateOf nfa.labels i).plain :=
  nfa.determinize.states_plain.trans (List.map_congr_left fun i _ =>
    congrArg State.plain (nfa.state_ofLabels _ _ i))

/-- **Determinizing by numbers never fails.** -/
theorem determinize?_plainNodes :
    determinize? nfa.plainNodes nfa.start = .ok nfa.determinize.plain := by
  have hexplore : explore? nfa.plainNodes [nfa.initial] [0] = .ok nfa.labels :=
    nfa.explore?_plainNodes (Exploration.start nfa) [0] rfl
  unfold determinize?
  rw [BitSet.insert?_val, ok_bind, close?_plainNodes, ok_bind]
  show (explore? nfa.plainNodes [nfa.initial] [0] >>= _) = _
  rw [hexplore, ok_bind, ← List.map_coe_finRange_eq_range,
    mapM_map_eq_ok fun i _ => nfa.stateAt?_plainNodes nfa.labels i, ok_bind,
    ← states_plain_determinize]
  rfl

end Nfa

end LineScan
