/-
  LineScan.Proofs.Nfa.History
  ───────────────────────────
  **WHAT AN ARENA OWES TO ITS HISTORY.**

  A history is a list of operations that begins with an arena without slots
  and meets no fault.  Whoever writes down which slots were handed out and
  which were given back knows two sets without ever looking into the arena:

      heldAfter       handed out, and not given back since
      returnedAfter   handed out once, and not held

  The arena agrees (`Ledger`): its nodes sit in the held slots, its free list
  names the returned ones, and its counters count what happened.  There are
  three ways for an operation to change these books.  It hands a slot out, it
  takes one back, or it leaves them as they are; each way has one lemma, each
  operation goes one of the ways (`Ledger.perform`), and a history is a list
  of such steps (`Ledger.run`).

  Main result: `history_accounted`.
-/
import LineScan.Proofs.Nfa.Arena
import Mathlib.Data.Finset.Card

namespace LineScan.Arena

/-! ## §1. Histories. -/

/-- Something that can be done to an arena. -/
inductive Operation where
  /-- Ask for a slot. -/
  | alloc
  /-- Release a slot. -/
  | discard (slot : Nat)
  /-- Merge the node in `source` into the one in `target`. -/
  | splice (target source : Nat)
  /-- Write the first reference of a node. -/
  | setNext (slot : Nat) (reference : Option Nat)
  /-- Write the second reference of a node. -/
  | setOther (slot : Nat) (reference : Option Nat)
  /-- Write the edge of a node. -/
  | setEdge (slot : Nat) (edge : Edge)
  /-- Write the anchor of a node. -/
  | setAnchor (slot : Nat) (anchor : Anchor)
deriving DecidableEq

/-- The slot that an operation gives back. -/
def Operation.givesBack : Operation → Option Nat
  | .discard slot => some slot
  | .splice _ source => some source
  | _ => none

/-- An operation that has been performed. -/
structure Step where
  /-- The operation. -/
  operation : Operation
  /-- The slot that it handed out. -/
  handedOut : Option Nat

/-- Performs an operation, and says which slot it hands out. -/
def perform (a : Arena) : Operation → Except Fault (Option Nat × Arena)
  | .alloc => .ok (some a.alloc.1, a.alloc.2)
  | .discard slot => (a.discard slot).map (none, ·)
  | .splice target source => (a.splice target source).map (none, ·)
  | .setNext slot reference => (a.setNext slot reference).map (none, ·)
  | .setOther slot reference => (a.setOther slot reference).map (none, ·)
  | .setEdge slot edge => (a.setEdge slot edge).map (none, ·)
  | .setAnchor slot anchor => (a.setAnchor slot anchor).map (none, ·)

/-- **Performs operations in order**, and keeps a record of them. -/
def run (a : Arena) : List Operation → Except Fault (List Step × Arena)
  | [] => .ok ([], a)
  | operation :: rest => do
      let (handedOut, a) ← a.perform operation
      let (steps, a) ← a.run rest
      return (⟨operation, handedOut⟩ :: steps, a)

/-! ## §2. The books of an outsider. -/

/-- The held slots after one more step. -/
def Step.hold (held : Finset Nat) (step : Step) : Finset Nat :=
  match step.handedOut, step.operation.givesBack with
  | some slot, _ => insert slot held
  | none, some slot => held.erase slot
  | none, none => held

/-- The slots that have been handed out and not given back since. -/
def heldAfter (steps : List Step) : Finset Nat := steps.foldl Step.hold ∅

/-- The slots that have been handed out at some time. -/
def handedOutBy (steps : List Step) : Finset Nat := (steps.filterMap Step.handedOut).toFinset

/-- The slots that have been given back and not handed out again. -/
def returnedAfter (steps : List Step) : Finset Nat := handedOutBy steps \ heldAfter steps

theorem heldAfter_snoc (steps : List Step) (step : Step) :
    heldAfter (steps ++ [step]) = step.hold (heldAfter steps) := by
  simp [heldAfter]

theorem mem_handedOutBy_snoc {steps : List Step} {step : Step} {i : Nat} :
    i ∈ handedOutBy (steps ++ [step]) ↔ i ∈ handedOutBy steps ∨ step.handedOut = some i := by
  simp [handedOutBy]

/-- **The books and the arena agree.** -/
structure Ledger (a : Arena) (steps : List Step) : Prop where
  /-- The free list and the node numbers are in order. -/
  consistent : a.Consistent
  /-- The nodes sit in the held slots. -/
  held : ∀ i, i ∈ heldAfter steps ↔ a.graph i ≠ none
  /-- The slots there are have all been handed out. -/
  handedOut : ∀ i, i ∈ handedOutBy steps ↔ i < a.slots.size
  /-- Every slot is held or on the free list, and none is both. -/
  count : a.free.length + (heldAfter steps).card = a.slots.size
  /-- Asking for a slot brings a new one or an old one. -/
  allocations : a.slots.size + a.reused = (steps.map Step.operation).count .alloc

theorem ledger_empty : Ledger empty [] where
  consistent := consistent_empty
  held i := by simp [heldAfter, graph, empty]
  handedOut i := by simp [handedOutBy, empty]
  count := rfl
  allocations := rfl

variable {a a' : Arena} {steps : List Step} {operation : Operation} {i j : Nat}

theorem Ledger.mem_returnedAfter_iff (h : Ledger a steps) :
    i ∈ returnedAfter steps ↔ a.slots[i]? = some none := by
  rw [returnedAfter, Finset.mem_sdiff, h.handedOut, h.held, not_not, graph]
  -- a slot without a node is released or not there at all
  by_cases hi : i < a.slots.size
  · rw [Array.getElem?_eq_getElem hi]
    simp [hi]
  · rw [Array.getElem?_eq_none (Nat.le_of_not_lt hi)]
    simp [hi]

/-! ## §3. Three ways to change the books. -/

/-- A slot is handed out. -/
theorem Ledger.handOut {n : Node Nat} (h : Ledger a steps) (ha' : a'.Consistent)
    (hfree : a.graph i = none) (hgraph : a'.graph = Function.update a.graph i (some n))
    (hslots : ∀ j, j < a'.slots.size ↔ j < a.slots.size ∨ i = j)
    (hcount : a'.free.length + a.slots.size + 1 = a.free.length + a'.slots.size)
    (hcalls : a'.slots.size + a'.reused = a.slots.size + a.reused + 1) :
    Ledger a' (steps ++ [⟨.alloc, some i⟩]) := by
  have hheld : heldAfter (steps ++ [⟨.alloc, some i⟩]) = insert i (heldAfter steps) :=
    heldAfter_snoc _ _
  have hnot : i ∉ heldAfter steps := by
    rw [h.held]
    exact fun hne => hne hfree
  refine ⟨ha', ?_, ?_, ?_, ?_⟩
  · intro j
    rw [hheld, Finset.mem_insert, h.held, hgraph]
    by_cases hj : j = i
    · subst hj
      simp
    · simp [hj]
  · intro j
    rw [mem_handedOutBy_snoc, h.handedOut, hslots, Option.some.injEq]
  · rw [hheld, Finset.card_insert_of_notMem hnot]
    have := h.count
    omega
  · have := h.allocations
    rw [List.map_append, List.count_append]
    show _ = _ + 1
    omega

/-- A held slot is given back. -/
theorem Ledger.giveBack (h : Ledger a steps) (ha' : a'.Consistent)
    (hback : operation.givesBack = some i) (hne : operation ≠ .alloc) (hi : a.graph i ≠ none)
    (hgraph : ∀ j, a'.graph j ≠ none ↔ j ≠ i ∧ a.graph j ≠ none)
    (hslots : a'.slots.size = a.slots.size) (hcount : a'.free.length = a.free.length + 1)
    (hreused : a'.reused = a.reused) : Ledger a' (steps ++ [⟨operation, none⟩]) := by
  have hheld : heldAfter (steps ++ [⟨operation, none⟩]) = (heldAfter steps).erase i := by
    rw [heldAfter_snoc, Step.hold, hback]
  have hmem : i ∈ heldAfter steps := (h.held i).2 hi
  refine ⟨ha', ?_, ?_, ?_, ?_⟩
  · intro j
    rw [hheld, Finset.mem_erase, h.held, hgraph]
  · intro j
    rw [mem_handedOutBy_snoc, h.handedOut, hslots]
    simp
  · rw [hheld, Finset.card_erase_of_mem hmem]
    have hpos : 0 < (heldAfter steps).card := Finset.card_pos.2 ⟨i, hmem⟩
    have := h.count
    omega
  · have := h.allocations
    rw [hslots, hreused, this]
    simp [hne]

/-- Nothing is handed out, and nothing that was held is given back. -/
theorem Ledger.keep (h : Ledger a steps) (ha' : a'.Consistent) (hne : operation ≠ .alloc)
    (hback : ∀ i, operation.givesBack = some i → a.graph i = none)
    (hgraph : ∀ j, a'.graph j ≠ none ↔ a.graph j ≠ none)
    (hslots : a'.slots.size = a.slots.size) (hcount : a'.free = a.free)
    (hreused : a'.reused = a.reused) : Ledger a' (steps ++ [⟨operation, none⟩]) := by
  have hheld : heldAfter (steps ++ [⟨operation, none⟩]) = heldAfter steps := by
    rw [heldAfter_snoc, Step.hold]
    cases hop : operation.givesBack with
    | none => rfl
    | some i =>
        -- giving back what is not held changes nothing
        refine Finset.erase_eq_of_notMem ?_
        rw [h.held]
        exact fun hi => hi (hback i hop)
  refine ⟨ha', ?_, ?_, ?_, ?_⟩
  · intro j
    rw [hheld, h.held, hgraph]
  · intro j
    rw [mem_handedOutBy_snoc, h.handedOut, hslots]
    simp
  · rw [hheld, hcount, hslots]
    exact h.count
  · rw [hslots, hreused, h.allocations]
    simp [hne]

/-! ## §4. Each operation goes one of the ways. -/

/-- What an allocation does to the slots and the counters. -/
theorem alloc_effect (ha : a.Consistent) :
    (∀ j, j < a.alloc.2.slots.size ↔ j < a.slots.size ∨ a.alloc.1 = j) ∧
      a.alloc.2.free.length + a.slots.size + 1 = a.free.length + a.alloc.2.slots.size ∧
      a.alloc.2.slots.size + a.alloc.2.reused = a.slots.size + a.reused + 1 ∧
      ∀ j, j ≠ a.alloc.1 → a.alloc.2.slots[j]? = a.slots[j]? := by
  unfold alloc
  split
  · next i free hfree =>
      -- the slot released last comes back
      have hi : i < a.slots.size := by
        have hrel : a.slots[i]? = some none := (ha.mem_free i).1 (by simp [hfree])
        exact (Array.getElem?_eq_some_iff.1 hrel).1
      refine ⟨?_, ?_, ?_, ?_⟩
      · intro j
        rw [Array.size_setIfInBounds]
        omega
      · simp only [hfree, Array.size_setIfInBounds, List.length_cons]
        omega
      · simp only [Array.size_setIfInBounds]
        omega
      · intro j hj
        rw [Array.getElem?_setIfInBounds, if_neg (Ne.symm hj)]
  · -- a new slot is added behind the last
    refine ⟨?_, ?_, ?_, ?_⟩
    · intro j
      rw [Array.size_push]
      omega
    · simp only [Array.size_push]
      omega
    · simp only [Array.size_push]
      omega
    · intro j hj
      rw [Array.getElem?_push, if_neg hj]

theorem Ledger.alloc (h : Ledger a steps) :
    Ledger a.alloc.2 (steps ++ [⟨.alloc, some a.alloc.1⟩]) := by
  obtain ⟨i, a', halloc, ha', hfree, hgraph⟩ := exists_alloc h.consistent
  obtain ⟨hslots, hcount, hcalls, _⟩ := alloc_effect h.consistent
  rw [halloc] at hslots hcount hcalls ⊢
  exact h.handOut ha' hfree hgraph hslots hcount hcalls

/-- A write that succeeds found a node, and touches nothing but that node. -/
theorem modify_effect {f : Node Nat → Node Nat} (h : a.modify i f = .ok a') :
    ∃ n, a.graph i = some n ∧ a'.slots.size = a.slots.size ∧ a'.free = a.free ∧
      a'.reused = a.reused ∧ ∀ j, j ≠ i → a'.slots[j]? = a.slots[j]? := by
  unfold modify at h
  cases hget : a.get i with
  | error e =>
      rw [hget] at h
      cases h
  | ok n =>
      rw [hget] at h
      cases h
      refine ⟨n, get_eq_ok_iff.1 hget, Array.size_setIfInBounds, rfl, rfl, ?_⟩
      intro j hj
      rw [Array.getElem?_setIfInBounds, if_neg (Ne.symm hj)]

/-- A write that keeps the number of the node leaves the books as they are. -/
theorem Ledger.modify {f : Node Nat → Node Nat} (h : Ledger a steps)
    (hf : ∀ n, (f n).index = n.index) (hne : operation ≠ .alloc)
    (hback : operation.givesBack = none) (hok : a.modify i f = .ok a') :
    Ledger a' (steps ++ [⟨operation, none⟩]) := by
  obtain ⟨n, hn, hslots, hfree, hreused, _⟩ := modify_effect hok
  obtain ⟨b, hb, hconsistent, hgraph⟩ := exists_modify h.consistent hn f (hf n)
  rw [hok] at hb
  cases hb
  refine h.keep hconsistent hne ?_ ?_ hslots hfree hreused
  · intro j hj
    rw [hback] at hj
    cases hj
  · intro j
    rw [hgraph]
    by_cases hj : j = i
    · subst hj
      simp [hn]
    · simp [hj]

theorem Ledger.release {n : Node Nat} (h : Ledger a steps) (hn : a.graph i = some n)
    (hback : operation.givesBack = some i) (hne : operation ≠ .alloc) :
    Ledger (a.release i) (steps ++ [⟨operation, none⟩]) := by
  refine h.giveBack (consistent_release h.consistent hn) hback hne (by simp [hn]) ?_
    Array.size_setIfInBounds rfl rfl
  intro j
  rw [graph_release hn]
  by_cases hj : j = i
  · subst hj
    simp
  · simp [hj]

/-- Releasing a slot takes it back, unless it has been released before. -/
theorem Ledger.discard (h : Ledger a steps) (hok : a.discard i = .ok a') :
    Ledger a' (steps ++ [⟨.discard i, none⟩]) := by
  unfold Arena.discard at hok
  split at hok
  · cases hok
  · next hreleased =>
      cases hok
      refine h.keep h.consistent (by simp) ?_ (fun j => Iff.rfl) rfl rfl rfl
      intro j hj
      cases hj
      exact graph_eq_none_of_released hreleased
  · next n hn =>
      cases hok
      exact h.release (graph_eq_some_iff.2 hn) rfl (by simp)

/-- A splice that succeeds found two nodes in different slots. -/
theorem splice_effect {target source : Nat} (h : a.splice target source = .ok a') :
    ∃ n t, a.graph source = some n ∧ a.graph target = some t ∧ target ≠ source ∧
      a'.slots.size = a.slots.size ∧ a'.free = source :: a.free ∧ a'.reused = a.reused ∧
      ∀ j, j ≠ target → j ≠ source → a'.slots[j]? = a.slots[j]? := by
  unfold splice at h
  split at h
  · cases h
  · cases h
  · next n hn =>
      have hsource : a.graph source = some n := graph_eq_some_iff.2 hn
      obtain ⟨t, ht, hslots, hfree, hreused, hother⟩ := modify_effect h
      rw [graph_release hsource] at ht
      -- the source has been emptied by now, so the target is another slot
      have hne : target ≠ source := by
        intro heq
        rw [heq, Function.update_self] at ht
        cases ht
      rw [Function.update_of_ne hne] at ht
      refine ⟨n, t, hsource, ht, hne, ?_, hfree, hreused, ?_⟩
      · rw [hslots]
        exact Array.size_setIfInBounds
      · intro j htarget hj
        rw [hother j htarget]
        show (a.slots.setIfInBounds source none)[j]? = _
        rw [Array.getElem?_setIfInBounds, if_neg (Ne.symm hj)]

/-- Splicing takes the source back. -/
theorem Ledger.splice {target source : Nat} (h : Ledger a steps)
    (hok : a.splice target source = .ok a') :
    Ledger a' (steps ++ [⟨.splice target source, none⟩]) := by
  obtain ⟨n, t, hn, ht, hne, hslots, hfree, hreused, _⟩ := splice_effect hok
  obtain ⟨b, hb, hconsistent, hgraph⟩ := exists_splice h.consistent hn ht hne
  rw [hok] at hb
  cases hb
  refine h.giveBack hconsistent rfl (by simp) (by simp [hn]) ?_ hslots (by simp [hfree]) hreused
  intro j
  rw [hgraph]
  by_cases hj : j = target
  · subst hj
    simp [hne, ht]
  · by_cases hs : j = source
    · subst hs
      simp [hj]
    · simp [hj, hs]

/-! ## §5. A step, and a history. -/

theorem eq_ok_of_map_eq_ok {x : Except Fault Arena} {out : Option Nat}
    (h : x.map (none, ·) = .ok (out, a')) : out = none ∧ x = .ok a' := by
  cases x with
  | error e => cases h
  | ok b =>
      cases h
      exact ⟨rfl, rfl⟩

/-- **Every operation keeps the books and the arena in agreement.** -/
theorem Ledger.perform {out : Option Nat} (h : Ledger a steps)
    (hok : a.perform operation = .ok (out, a')) :
    Ledger a' (steps ++ [⟨operation, out⟩]) := by
  cases operation with
  | alloc =>
      cases hok
      exact h.alloc
  | discard slot =>
      obtain ⟨rfl, hdone⟩ := eq_ok_of_map_eq_ok hok
      exact h.discard hdone
  | splice target source =>
      obtain ⟨rfl, hdone⟩ := eq_ok_of_map_eq_ok hok
      exact h.splice hdone
  | setNext | setOther | setEdge | setAnchor =>
      obtain ⟨rfl, hdone⟩ := eq_ok_of_map_eq_ok hok
      refine Ledger.modify h ?_ (by simp) rfl hdone
      -- none of the writes reaches the number of the node
      intro n
      rfl

/-- **Every history keeps them in agreement**, and its record names its
operations. -/
theorem Ledger.run {operations : List Operation} {further : List Step} (h : Ledger a steps)
    (hok : a.run operations = .ok (further, a')) :
    Ledger a' (steps ++ further) ∧ further.map Step.operation = operations := by
  induction operations generalizing a steps further with
  | nil =>
      cases hok
      rw [List.append_nil]
      exact ⟨h, rfl⟩
  | cons operation rest ih =>
      simp only [Arena.run, bind, Except.bind] at hok
      cases hstep : a.perform operation with
      | error e =>
          rw [hstep] at hok
          cases hok
      | ok r =>
          obtain ⟨out, b⟩ := r
          simp only [hstep] at hok
          cases hrest : b.run rest with
          | error e =>
              rw [hrest] at hok
              cases hok
          | ok r =>
              rw [hrest] at hok
              cases hok
              obtain ⟨hledger, hmap⟩ := ih (h.perform hstep) hrest
              rw [List.append_assoc] at hledger
              exact ⟨hledger, by rw [List.map_cons, hmap]⟩

/-- The slots that hold a node are the held ones. -/
theorem Ledger.exists_get_iff (h : Ledger a steps) :
    (∃ n, a.get i = .ok n) ↔ i ∈ heldAfter steps := by
  rw [h.held, Option.ne_none_iff_exists']
  simp only [get_eq_ok_iff]

/-- What an allocation hands out, and what it leaves alone. -/
theorem get_alloc (ha : a.Consistent) (halloc : a.alloc = (i, a')) :
    a.graph i = none ∧ a'.get i = .ok (Node.fresh i) ∧
      ∀ j, j ≠ i → a'.slots[j]? = a.slots[j]? := by
  obtain ⟨i', b, hb, _, hfree, hgraph⟩ := exists_alloc ha
  obtain ⟨_, _, _, hother⟩ := alloc_effect ha
  rw [halloc] at hb hother
  cases hb
  refine ⟨hfree, ?_, hother⟩
  rw [get_eq_ok_iff, hgraph, Function.update_self]

/-- What a splice moves and empties, and what it leaves alone. -/
theorem get_splice {target source : Nat} (ha : a.Consistent)
    (hsplice : a.splice target source = .ok a') :
    (∃ n, a.get source = .ok n ∧ a'.get target = .ok { n with index := target }) ∧
      a'.slots[source]? = some none ∧
      ∀ j, j ≠ target → j ≠ source → a'.slots[j]? = a.slots[j]? := by
  obtain ⟨n, t, hn, ht, hne, _, hfree, _, hother⟩ := splice_effect hsplice
  obtain ⟨b, hb, hconsistent, hgraph⟩ := exists_splice ha hn ht hne
  rw [hsplice] at hb
  cases hb
  refine ⟨⟨n, get_eq_ok_iff.2 hn, ?_⟩, ?_, hother⟩
  · rw [get_eq_ok_iff, hgraph, Function.update_self, ha.index target t ht]
  · rw [← hconsistent.mem_free, hfree]
    exact List.mem_cons_self

/-- **What holds of an arena after a history**, whose record is `steps`. -/
structure Accounted (operations : List Operation) (steps : List Step) (a : Arena) : Prop where
  /-- No slot is on the free list twice. -/
  nodup : a.free.Nodup
  /-- Exactly the returned slots are on it. -/
  mem_free : ∀ i, i ∈ a.free ↔ i ∈ returnedAfter steps
  /-- The returned slots are the empty ones. -/
  released : ∀ i, a.slots[i]? = some none ↔ i ∈ returnedAfter steps
  /-- The held slots are those with a node. -/
  live : ∀ i, (∃ n, a.get i = .ok n) ↔ i ∈ heldAfter steps
  /-- A node carries the number of its slot. -/
  index : ∀ i n, a.get i = .ok n → n.index = i
  /-- The arena counts the held slots. -/
  live_eq_card : a.live = (heldAfter steps).card
  /-- Every allocation brought a slot that is new or had been returned. -/
  allocations : a.slots.size + a.reused = operations.count .alloc
  /-- The next allocation hands out a slot that is not held, with a fresh node
  in it, and changes no other slot. -/
  alloc : ∀ i a', a.alloc = (i, a') →
    i ∉ heldAfter steps ∧ a'.get i = .ok (Node.fresh i) ∧
      ∀ j, j ≠ i → a'.slots[j]? = a.slots[j]?
  /-- A splice empties the source, moves its node into the target, which keeps
  its own number, and changes no other slot. -/
  splice : ∀ target source a', a.splice target source = .ok a' →
    (∃ n, a.get source = .ok n ∧ a'.get target = .ok { n with index := target }) ∧
      a'.slots[source]? = some none ∧
      ∀ j, j ≠ target → j ≠ source → a'.slots[j]? = a.slots[j]?

/-- **After every history without a fault the arena is accounted for.**  Since
every beginning of a history is one too, this speaks of each of its
allocations and splices. -/
theorem history_accounted {operations : List Operation} {steps : List Step} {a : Arena}
    (h : empty.run operations = .ok (steps, a)) : Accounted operations steps a := by
  obtain ⟨hledger, hmap⟩ := ledger_empty.run h
  rw [List.nil_append] at hledger
  have hc := hledger.consistent
  refine ⟨hc.nodup, ?_, ?_, fun i => hledger.exists_get_iff, ?_, ?_, ?_, ?_, ?_⟩
  · intro i
    rw [hc.mem_free, hledger.mem_returnedAfter_iff]
  · intro i
    rw [hledger.mem_returnedAfter_iff]
  · intro i n hn
    exact hc.index i n (get_eq_ok_iff.1 hn)
  · have hcount := hledger.count
    rw [Arena.live]
    omega
  · rw [hledger.allocations, hmap]
  · intro i a' halloc
    obtain ⟨hfree, hfresh, hother⟩ := get_alloc hc halloc
    refine ⟨?_, hfresh, hother⟩
    rw [hledger.held]
    exact fun hne => hne hfree
  · exact fun target source a' hsplice => get_splice hc hsplice

/-- A slot is released twice, handed out again, and merged into another. -/
theorem history_accounted_reuse :
    ∃ steps a, empty.run [.alloc, .alloc, .setNext 0 (some 1), .discard 0, .discard 0, .alloc,
        .alloc, .setEdge 2 (.byte 0x61), .splice 1 2] = .ok (steps, a) ∧
      Accounted [.alloc, .alloc, .setNext 0 (some 1), .discard 0, .discard 0, .alloc, .alloc,
        .setEdge 2 (.byte 0x61), .splice 1 2] steps a :=
  ⟨_, _, rfl, history_accounted rfl⟩

end LineScan.Arena
