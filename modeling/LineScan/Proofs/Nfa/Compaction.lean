/-
  LineScan.Proofs.Nfa.Compaction
  ──────────────────────────────
  **CLOSING THE GAPS CHANGES NO NODE.**

  `Arena.finish` is applied to whatever a history of operations has left: slots
  that were released and handed out again, in any pattern, and references that
  were written by hand.  Two questions are answered for all of them.

      when does it succeed?   when the start and every reference lead to a
                              slot with a node in it (`Closed`); else the fault
                              names a slot that is mentioned and has none
      what does it return?    the nodes in the order of their slots, each with
                              the edge and the anchor it had, and with its
                              number and its references renumbered by one and
                              the same map (`Compacted`)

  The first answer follows `finish` step by step: a loop that fails, fails on
  one of its entries (`exists_of_mapM_error`).  The map of the second answer is
  the inverse of the map from positions to slots.
-/
import LineScan.Proofs.Nfa.Finish
import LineScan.Proofs.Nfa.History
import LineScan.Proofs.Plain.Access
import Mathlib.Data.Set.Function

namespace LineScan

/-! ## §1. Loops that fail. -/

section
variable {α β ε : Type} {f : α → Except ε β}

/-- A loop that succeeds, succeeds on each entry. -/
theorem exists_of_mapM_ok {l : List α} {ys : List β} (h : l.mapM f = .ok ys) :
    ∀ x ∈ l, ∃ y, f x = .ok y := by
  induction l generalizing ys with
  | nil => exact fun x hx => absurd hx List.not_mem_nil
  | cons x l ih =>
      rw [List.mapM_cons] at h
      obtain ⟨y, hy, hrest⟩ := exists_of_bind_eq_ok h
      obtain ⟨zs, hzs, _⟩ := exists_of_bind_eq_ok hrest
      intro z hz
      rcases List.mem_cons.1 hz with hz | hz
      · exact ⟨y, hz ▸ hy⟩
      · exact ih hzs z hz

/-- A loop that fails, fails on one of its entries. -/
theorem exists_of_mapM_error {l : List α} {e : ε} (h : l.mapM f = .error e) :
    ∃ x ∈ l, f x = .error e := by
  induction l with
  | nil => cases h
  | cons x l ih =>
      rw [List.mapM_cons] at h
      cases hx : f x with
      | error e' =>
          rw [hx] at h
          cases h
          exact ⟨x, List.mem_cons_self, hx⟩
      | ok y =>
          rw [hx, ok_bind] at h
          cases hl : l.mapM f with
          | ok ys =>
              rw [hl] at h
              cases h
          | error e' =>
              rw [hl] at h
              cases h
              obtain ⟨z, hz, hfz⟩ := ih hl
              exact ⟨z, List.mem_cons_of_mem x hz, hfz⟩

/-- A loop over a vector is a loop over its list. -/
theorem toList_mapM {n : Nat} (xs : Vector α n) :
    Vector.toList <$> xs.mapM f = xs.toList.mapM f := by
  have harray : Vector.toArray <$> xs.mapM f = xs.toArray.mapM f := Vector.toArray_mapM
  have hlist : Array.toList <$> xs.toArray.mapM f = xs.toList.mapM f := Array.toList_mapM
  rw [← hlist, ← harray]
  cases xs.mapM f <;> rfl

end

namespace Arena

variable {a : Arena} {i j start : Nat} {n : Node Nat} {e : Fault}

/-! ## §2. Slots that are mentioned. -/

/-- There is a node in the slot. -/
def Occupied (a : Arena) (i : Nat) : Prop := ∃ n, a.get i = .ok n

/-- The slot is to be the start, or a node refers to it. -/
def Mentions (a : Arena) (start j : Nat) : Prop :=
  j = start ∨ ∃ i n, a.get i = .ok n ∧ j ∈ n.refs

/-- **Nothing is mentioned but slots with a node.** -/
def Closed (a : Arena) (start : Nat) : Prop := ∀ j, a.Mentions start j → a.Occupied j

/-- What is wrong with a slot that has no node. -/
def absence (a : Arena) (j : Nat) : Fault :=
  if j < a.slots.size then .danglingReference j else .outOfRange a.slots.size j

theorem occupied_iff : a.Occupied i ↔ ∃ n, a.graph i = some n := by
  unfold Occupied
  simp only [get_eq_ok_iff]

theorem Closed.grounded (h : a.Closed start) : a.Grounded := by
  intro i n hn j hj
  exact occupied_iff.1 (h j (.inr ⟨i, n, get_eq_ok_iff.2 hn, hj⟩))

/-- A slot with a position has a node. -/
theorem occupied_of_rank? {k : Fin a.nodes.length} (h : a.rank? j = .ok k) : a.Occupied j := by
  unfold rank? at h
  cases hk : a.nodes.findFinIdx? fun entry => entry.1 == j with
  | none =>
      rw [hk] at h
      simp only at h
      split at h <;> cases h
  | some l =>
      rw [List.findFinIdx?_eq_some_iff] at hk
      have hmem := List.get_mem a.nodes l
      have hj : (a.nodes.get l).1 = j := by simpa using hk.1
      exact occupied_iff.2 ⟨(a.nodes.get l).2, mem_nodes.1 (hj ▸ hmem)⟩

/-- A slot without a position has no node. -/
theorem not_occupied_of_rank? (h : a.rank? j = .error e) : ¬ a.Occupied j ∧ e = a.absence j := by
  constructor
  · intro hj
    obtain ⟨m, hm⟩ := occupied_iff.1 hj
    obtain ⟨k, hk, _⟩ := exists_rank hm
    rw [hk] at h
    cases h
  · unfold rank? at h
    unfold absence
    split at h
    · cases h
    · split at h <;> cases h <;> simp [*]

/-! ## §3. When finishing succeeds. -/

theorem exists_of_renumberRef_ok {r : Option Nat} {r' : Option (Fin a.nodes.length)}
    (h : Node.renumber.renumberRef a.rank? r = .ok r') (hj : r = some j) : a.Occupied j := by
  subst hj
  change (a.rank? j).map some = .ok r' at h
  cases hk : a.rank? j with
  | error e =>
      rw [hk] at h
      cases h
  | ok k => exact occupied_of_rank? hk

theorem exists_of_renumberRef_error {r : Option Nat}
    (h : Node.renumber.renumberRef a.rank? r = .error e) :
    ∃ j, r = some j ∧ a.rank? j = .error e := by
  cases r with
  | none => cases h
  | some j =>
      change (a.rank? j).map some = .error e at h
      cases hk : a.rank? j with
      | error e' =>
          rw [hk] at h
          cases h
          exact ⟨j, rfl, hk⟩
      | ok k =>
          rw [hk] at h
          cases h

/-- A node that can be renumbered refers to nodes. -/
theorem occupied_of_renumber {m : Node (Fin a.nodes.length)} (h : n.renumber a.rank? = .ok m)
    (hj : j ∈ n.refs) : a.Occupied j := by
  obtain ⟨_, _, hnext⟩ := exists_of_bind_eq_ok h
  obtain ⟨_, hnext, hother⟩ := exists_of_bind_eq_ok hnext
  obtain ⟨_, hother, _⟩ := exists_of_bind_eq_ok hother
  rcases Node.mem_refs.1 hj with hj | hj
  · exact exists_of_renumberRef_ok hnext hj
  · exact exists_of_renumberRef_ok hother hj

/-- A node that cannot be renumbered has a number, or a reference, without a
position. -/
theorem exists_of_renumber_error (h : n.renumber a.rank? = .error e) :
    ∃ j, (j = n.index ∨ j ∈ n.refs) ∧ a.rank? j = .error e := by
  unfold Node.renumber at h
  cases hindex : a.rank? n.index with
  | error e' =>
      rw [hindex] at h
      cases h
      exact ⟨n.index, .inl rfl, hindex⟩
  | ok index =>
      rw [hindex, ok_bind] at h
      cases hnext : Node.renumber.renumberRef a.rank? n.next with
      | error e' =>
          rw [hnext] at h
          cases h
          obtain ⟨j, hj, hk⟩ := exists_of_renumberRef_error hnext
          exact ⟨j, .inr (Node.mem_refs.2 (.inl hj)), hk⟩
      | ok next =>
          rw [hnext, ok_bind] at h
          cases hother : Node.renumber.renumberRef a.rank? n.other with
          | error e' =>
              rw [hother] at h
              cases h
              obtain ⟨j, hj, hk⟩ := exists_of_renumberRef_error hother
              exact ⟨j, .inr (Node.mem_refs.2 (.inr hj)), hk⟩
          | ok other =>
              rw [hother] at h
              cases h

theorem size_toArray_nodes (a : Arena) : a.nodes.toArray.size = a.nodes.length :=
  List.size_toArray

/-- The nodes with their slots, as many as there are. -/
def entries (a : Arena) : Vector (Nat × Node Nat) a.nodes.length :=
  ⟨a.nodes.toArray, a.size_toArray_nodes⟩

/-- The nodes are renumbered one after the other, the start last. -/
theorem finish_eq (a : Arena) (start : Nat) :
    a.finish start = (do
      let nodes ← a.entries.mapM fun entry => entry.2.renumber a.rank?
      let start ← a.rank? start
      return { size := a.nodes.length, nodes, start }) := rfl

theorem mapM_nodes {β : Type} (a : Arena) (f : Nat × Node Nat → Except Fault β) :
    a.nodes.mapM f = Vector.toList <$> a.entries.mapM f :=
  (toList_mapM a.entries).symm

/-- **Finishing succeeds on closed arenas only.** -/
theorem closed_of_finish {nfa : Nfa} (h : a.finish start = .ok nfa) : a.Closed start := by
  rw [finish_eq] at h
  obtain ⟨nodes, hnodes, h⟩ := exists_of_bind_eq_ok h
  obtain ⟨k, hstart, _⟩ := exists_of_bind_eq_ok h
  have hloop : a.nodes.mapM (fun entry => entry.2.renumber a.rank?) = .ok nodes.toList := by
    rw [mapM_nodes, hnodes]
    rfl
  intro j hj
  rcases hj with hj | ⟨i, n, hn, hj⟩
  · exact hj ▸ occupied_of_rank? hstart
  · obtain ⟨m, hm⟩ := exists_of_mapM_ok hloop (i, n) (mem_nodes.2 (get_eq_ok_iff.1 hn))
    exact occupied_of_renumber hm hj

/-- **A fault names a slot that is mentioned and has no node.** -/
theorem exists_of_finish_error (ha : a.Consistent) (h : a.finish start = .error e) :
    ∃ j, a.Mentions start j ∧ ¬ a.Occupied j ∧ e = a.absence j := by
  rw [finish_eq] at h
  cases hnodes : a.entries.mapM fun entry => entry.2.renumber a.rank? with
  | error e' =>
      rw [hnodes] at h
      cases h
      have hloop : a.nodes.mapM (fun entry => entry.2.renumber a.rank?) = .error e := by
        rw [mapM_nodes, hnodes]
        rfl
      obtain ⟨⟨i, n⟩, hentry, hrenumber⟩ := exists_of_mapM_error hloop
      have hn := mem_nodes.1 hentry
      obtain ⟨j, hj, hrank⟩ := exists_of_renumber_error hrenumber
      obtain ⟨hnot, he⟩ := not_occupied_of_rank? hrank
      rcases hj with hj | hj
      · -- the number of a node is the slot that it is in
        rw [hj, ha.index i n hn] at hnot
        exact absurd (occupied_iff.2 ⟨n, hn⟩) hnot
      · exact ⟨j, .inr ⟨i, n, get_eq_ok_iff.2 hn, hj⟩, hnot, he⟩
  | ok nodes =>
      rw [hnodes, ok_bind] at h
      cases hstart : a.rank? start with
      | error e' =>
          rw [hstart] at h
          cases h
          obtain ⟨hnot, he⟩ := not_occupied_of_rank? hstart
          exact ⟨start, .inl rfl, hnot, he⟩
      | ok k =>
          rw [hstart] at h
          cases h

/-! ## §4. What finishing returns. -/

/-- A node of the finished automaton and the one it was made of, when slots
are renumbered in this way. -/
structure Moves (r : Nat → Nat) {size : Nat} (n : Node Nat) (m : Node (Fin size)) : Prop where
  /-- The number is renumbered. -/
  index : m.index.val = r n.index
  /-- The edge is the same. -/
  edge : m.edge = n.edge
  /-- The anchor is the same. -/
  anchor : m.anchor = n.anchor
  /-- The first reference is renumbered, and stays absent when it is. -/
  next : m.next.map Fin.val = n.next.map r
  /-- So is the second one. -/
  other : m.other.map Fin.val = n.other.map r

/-- **The nodes of an arena without the gaps**, renumbered by one map. -/
structure Compacted (a : Arena) (start : Nat) (nfa : Nfa) (r : Nat → Nat) : Prop where
  /-- There are as many nodes as the arena counts. -/
  size : nfa.size = a.live
  /-- Slots with a node correspond to positions. -/
  bijective : Set.BijOn r {i | a.Occupied i} (Set.Iio a.live)
  /-- They keep their order. -/
  ascending : StrictMonoOn r {i | a.Occupied i}
  /-- At the position of a slot stands its node, whose number is the
  position. -/
  node : ∀ i n, a.get i = .ok n →
    ∃ k : Fin nfa.size, k.val = r i ∧ (nfa.node k).index = k ∧ Moves r n (nfa.node k)
  /-- The start is renumbered. -/
  start : nfa.start.val = r start

/-- The position of a slot, when positions have these slots. -/
noncomputable def positionOf {nfa : Nfa} (slot : Fin nfa.size → Nat) (i : Nat) : Nat :=
  haveI : Nonempty (Fin nfa.size) := ⟨nfa.start⟩
  (Function.invFun slot i).val

variable {nfa : Nfa} {slot : Fin nfa.size → Nat}

theorem positionOf_slot (h : Function.Injective slot) (k : Fin nfa.size) :
    positionOf slot (slot k) = k.val := by
  have : Nonempty (Fin nfa.size) := ⟨nfa.start⟩
  exact congrArg Fin.val (Function.leftInverse_invFun h k)

/-- A reference that leads to the same slot is a reference that is
renumbered. -/
theorem map_positionOf (h : Function.Injective slot) (r : Option (Fin nfa.size)) :
    (r.map slot).map (positionOf slot) = r.map Fin.val := by
  cases r with
  | none => rfl
  | some k => exact congrArg some (positionOf_slot h k)

/-- An automaton whose positions have the slots with a node has as many nodes
as the arena counts. -/
theorem size_eq_live {steps : List Step} (hledger : Ledger a steps)
    (hslot : ∀ i, a.Occupied i ↔ ∃ k, slot k = i) (hinj : Function.Injective slot) :
    nfa.size = a.live := by
  have hheld : heldAfter steps = Finset.univ.image slot := by
    ext i
    rw [← hledger.exists_get_iff, Finset.mem_image]
    simpa [Occupied] using hslot i
  have hcard : (heldAfter steps).card = nfa.size := by
    rw [hheld, Finset.card_image_of_injective _ hinj, Finset.card_univ, Fintype.card_fin]
  have hcount := hledger.count
  rw [live]
  omega

/-- **Finishing a closed arena** moves its nodes together. -/
theorem exists_compacted {steps : List Step} (hledger : Ledger a steps) (h : a.Closed start) :
    ∃ nfa r, a.finish start = .ok nfa ∧ Compacted a start nfa r := by
  obtain ⟨n, hn⟩ := occupied_iff.1 (h start (.inl rfl))
  obtain ⟨nfa, slot, hfinish, hr, hplace⟩ := exists_finish hledger.consistent h.grounded hn
  have hinj := hr.ascending.injective
  have hslot : ∀ i, a.Occupied i ↔ ∃ k, slot k = i := by
    intro i
    rw [occupied_iff]
    constructor
    · intro ⟨m, hm⟩
      exact hplace i m hm
    · intro ⟨k, hk⟩
      obtain ⟨m, hm, _⟩ := hr.node k
      exact ⟨m, hk ▸ hm⟩
  have hsize := size_eq_live hledger hslot hinj
  -- `slot` takes positions to slots in order, so its inverse takes slots to positions in order
  refine ⟨nfa, positionOf slot, hfinish, hsize, ⟨?_, ?_, ?_⟩, ?_, ?_, ?_⟩
  · intro i hi
    obtain ⟨k, hk⟩ := (hslot i).1 hi
    rw [← hk, positionOf_slot hinj, Set.mem_Iio, ← hsize]
    exact k.isLt
  · intro i hi j hj heq
    obtain ⟨k, hk⟩ := (hslot i).1 hi
    obtain ⟨l, hl⟩ := (hslot j).1 hj
    rw [← hk, ← hl, positionOf_slot hinj, positionOf_slot hinj] at heq
    rw [← hk, ← hl, Fin.ext heq]
  · intro p hp
    rw [Set.mem_Iio, ← hsize] at hp
    exact ⟨slot ⟨p, hp⟩, (hslot _).2 ⟨_, rfl⟩, positionOf_slot hinj _⟩
  · intro i hi j hj hlt
    obtain ⟨k, hk⟩ := (hslot i).1 hi
    obtain ⟨l, hl⟩ := (hslot j).1 hj
    rw [← hk, ← hl] at hlt ⊢
    rw [positionOf_slot hinj, positionOf_slot hinj]
    exact hr.ascending.lt_iff_lt.1 hlt
  · intro i m hm
    obtain ⟨k, hk⟩ := (hslot i).1 ⟨m, hm⟩
    obtain ⟨m', hm', hmoves⟩ := hr.node k
    -- the node at the position is made of the one in the slot
    have hmm : m = m' := by
      rw [get_eq_ok_iff, ← hk, hm'] at hm
      exact (Option.some.inj hm).symm
    subst hmm
    refine ⟨k, ?_, hr.numbered k, ?_, hmoves.edge, hmoves.anchor, ?_, ?_⟩
    · rw [← hk, positionOf_slot hinj]
    · rw [← hmoves.index, positionOf_slot hinj]
    · rw [← hmoves.next, map_positionOf hinj]
    · rw [← hmoves.other, map_positionOf hinj]
  · rw [← hr.start, positionOf_slot hinj]

/-- Whatever finishing returns has the nodes of the arena. -/
theorem Ledger.exists_compacted_of_finish {steps : List Step} (hledger : Ledger a steps)
    (h : a.finish start = .ok nfa) : ∃ r, Compacted a start nfa r := by
  obtain ⟨nfa', r, hnfa', hcompacted⟩ := exists_compacted hledger (closed_of_finish h)
  rw [h] at hnfa'
  cases hnfa'
  exact ⟨r, hcompacted⟩

/-! ## §5. Every history. -/

/-- **How finishing goes** from a given start. -/
structure Compaction (a : Arena) (start : Nat) : Prop where
  /-- It succeeds when nothing is mentioned but slots with a node, and only
  then. -/
  succeeds_iff : (∃ nfa, a.finish start = .ok nfa) ↔ a.Closed start
  /-- Otherwise the fault names a slot that is mentioned and has no node. -/
  fault : ¬ a.Closed start →
    ∃ j, a.Mentions start j ∧ ¬ a.Occupied j ∧ a.finish start = .error (a.absence j)
  /-- The automaton has the nodes of the arena, renumbered by one map. -/
  compacted : ∀ nfa, a.finish start = .ok nfa → ∃ r, Compacted a start nfa r

/-- **Finishing after any history closes the gaps and changes nothing
else.** -/
theorem history_compacts {operations : List Operation} {steps : List Step} {a : Arena}
    (h : empty.run operations = .ok (steps, a)) (start : Nat) : a.Compaction start := by
  obtain ⟨hledger, _⟩ := ledger_empty.run h
  refine ⟨⟨fun ⟨nfa, hnfa⟩ => closed_of_finish hnfa, fun hclosed => ?_⟩, fun hopen => ?_,
    fun nfa hnfa => hledger.exists_compacted_of_finish hnfa⟩
  · obtain ⟨nfa, _, hnfa, _⟩ := exists_compacted hledger hclosed
    exact ⟨nfa, hnfa⟩
  · cases hfinish : a.finish start with
    | ok nfa => exact absurd (closed_of_finish hfinish) hopen
    | error e =>
        obtain ⟨j, hj, hnot, he⟩ := exists_of_finish_error hledger.consistent hfinish
        exact ⟨j, hj, hnot, by rw [he]⟩

/-- Three slots, of which the middle one is merged into the last and stays
empty. -/
def middleMerged : List Operation :=
  [.alloc, .alloc, .alloc, .setNext 1 (some 0), .setEdge 1 (.byte 0x61), .splice 2 1,
    .setNext 0 (some 2)]

/-- The first and the last slot move together; the middle one cannot be the
start. -/
theorem history_compacts_gap :
    ∃ steps a, empty.run middleMerged = .ok (steps, a) ∧
      a.Compaction 0 ∧ ((a.finish 0).map Nfa.size).toOption = some 2 ∧
      a.Compaction 1 ∧ ((a.finish 1).map Nfa.size).toOption = none :=
  ⟨_, _, rfl, history_compacts (rfl : empty.run middleMerged = .ok _) 0, by decide +kernel,
    history_compacts (rfl : empty.run middleMerged = .ok _) 1, by decide +kernel⟩

end Arena

end LineScan
