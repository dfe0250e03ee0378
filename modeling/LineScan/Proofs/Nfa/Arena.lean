/-
  LineScan.Proofs.Nfa.Arena
  ─────────────────────────
  **AN ARENA AS A GRAPH.**

  `Arena.graph` forgets the free list and the counters: what is left is the
  node of every live slot.  On an arena whose free list and node numbers are
  in order (`Arena.Consistent`) every operation succeeds on live slots,
  keeps that order, and changes the graph at the slots it names:

      alloc          a slot without a node gets a fresh one
      modify         the node of one slot changes
      splice         one slot takes over the node of another, which is freed
-/
import LineScan.Nfa.Arena
import LineScan.Proofs.Nfa.Path
import Mathlib.Logic.Function.Basic

namespace LineScan

namespace Arena

variable {a : Arena} {i j : Nat} {n t : Node Nat}

/-! ## §1. The graph and the order of an arena. -/

/-- The nodes of the live slots. -/
def graph (a : Arena) : Graph Nat := fun i => (a.slots[i]?).join

theorem graph_eq_some_iff : a.graph i = some n ↔ a.slots[i]? = some (some n) := by
  unfold graph
  cases a.slots[i]? <;> simp

theorem graph_eq_none_of_released (h : a.slots[i]? = some none) : a.graph i = none := by
  rw [graph, h]
  rfl

theorem get_eq_ok_iff : a.get i = .ok n ↔ a.graph i = some n := by
  rw [graph_eq_some_iff]
  unfold get
  split <;> simp_all

/-- Every node carries the number of its slot. -/
def Numbered (G : Graph Nat) : Prop := ∀ i n, G i = some n → n.index = i

theorem Numbered.update {G : Graph Nat} (hG : Numbered G) {x : Option (Node Nat)}
    (hx : ∀ n, x = some n → n.index = i) : Numbered (Function.update G i x) := by
  intro j n hn
  by_cases hj : j = i
  · subst hj
    rw [Function.update_self] at hn
    exact hx n hn
  · rw [Function.update_of_ne hj] at hn
    exact hG j n hn

/-- The free list names each released slot once, and every node carries the
number of its slot. -/
structure Consistent (a : Arena) : Prop where
  /-- No slot is on the free list twice. -/
  nodup : a.free.Nodup
  /-- Exactly the released slots are on it. -/
  mem_free : ∀ i, i ∈ a.free ↔ a.slots[i]? = some none
  /-- A node carries the number of its slot. -/
  index : Numbered a.graph

theorem consistent_empty : Arena.empty.Consistent := by
  refine ⟨List.nodup_nil, ?_, ?_⟩
  · intro i
    simp [empty]
  · intro i n h
    simp [graph, empty] at h

/-! ## §2. Writing to a slot. -/

theorem graph_set (slots : Array (Option (Node Nat))) (free : List Nat) (reused : Nat)
    (x : Option (Node Nat)) (hi : i < slots.size) :
    graph ⟨slots.setIfInBounds i x, free, reused⟩ =
      Function.update (graph ⟨slots, free, reused⟩) i x := by
  funext j
  unfold graph
  rw [Array.getElem?_setIfInBounds]
  by_cases hj : j = i
  · subst hj
    simp [hi]
  · rw [if_neg (Ne.symm hj), Function.update_of_ne hj]

theorem lt_size_of_graph (h : a.graph i = some n) : i < a.slots.size := by
  rw [graph_eq_some_iff] at h
  obtain ⟨hi, _⟩ := Array.getElem?_eq_some_iff.1 h
  exact hi

/-- **Changing a node** changes the graph at its slot. -/
theorem exists_modify (ha : a.Consistent) (hn : a.graph i = some n) (f : Node Nat → Node Nat)
    (hf : (f n).index = n.index) :
    ∃ a', a.modify i f = .ok a' ∧ a'.Consistent ∧
      a'.graph = Function.update a.graph i (some (f n)) := by
  have hi := lt_size_of_graph hn
  have hget : a.get i = .ok n := get_eq_ok_iff.2 hn
  refine ⟨{ a with slots := a.slots.setIfInBounds i (some (f n)) }, ?_, ?_, ?_⟩
  · unfold modify
    rw [hget]
    rfl
  · refine ⟨ha.nodup, ?_, ?_⟩
    · intro j
      rw [ha.mem_free, Array.getElem?_setIfInBounds]
      by_cases hj : i = j
      · subst hj
        rw [graph_eq_some_iff.1 hn, if_pos rfl, if_pos hi]
        simp
      · rw [if_neg hj]
    · rw [graph_set _ _ _ _ hi]
      apply ha.index.update
      intro m hm
      cases hm
      rw [hf, ha.index i n hn]
  · exact graph_set _ _ _ _ hi

/-- **Putting a fresh node into a slot** changes the graph at a slot that had
no node. -/
theorem exists_alloc (ha : a.Consistent) :
    ∃ i a', a.alloc = (i, a') ∧ a'.Consistent ∧ a.graph i = none ∧
      a'.graph = Function.update a.graph i (some (Node.fresh i)) := by
  unfold alloc
  split
  · next i free hfree =>
      have hnodup := ha.nodup
      rw [hfree, List.nodup_cons] at hnodup
      have hrel : a.slots[i]? = some none := (ha.mem_free i).1 (by rw [hfree]; simp)
      have hi : i < a.slots.size := (Array.getElem?_eq_some_iff.1 hrel).1
      refine ⟨_, _, rfl, ⟨hnodup.2, ?_, ?_⟩, graph_eq_none_of_released hrel, graph_set _ _ _ _ hi⟩
      · intro j
        have hj := ha.mem_free j
        rw [hfree, List.mem_cons] at hj
        rw [Array.getElem?_setIfInBounds]
        by_cases hij : i = j
        · subst hij
          simp [hi, hnodup.1]
        · rw [if_neg hij, ← hj]
          simp [Ne.symm hij]
      · rw [graph_set _ _ _ _ hi]
        apply ha.index.update
        intro m hm
        cases hm
        rfl
  · next hfree =>
      -- no slot has been released, so a new one is added behind the last
      have hgraph : graph { a with slots := a.slots.push (some (Node.fresh a.slots.size)) } =
          Function.update a.graph a.slots.size (some (Node.fresh a.slots.size)) := by
        funext j
        unfold graph
        rw [Array.getElem?_push]
        by_cases hj : j = a.slots.size
        · subst hj
          simp
        · rw [if_neg hj, Function.update_of_ne hj]
      refine ⟨_, _, rfl, ⟨ha.nodup, ?_, ?_⟩, by simp [graph], hgraph⟩
      · intro j
        rw [ha.mem_free, Array.getElem?_push]
        by_cases hj : j = a.slots.size
        · subst hj
          simp
        · rw [if_neg hj]
      · rw [hgraph]
        apply ha.index.update
        intro m hm
        cases hm
        rfl

/-! ## §3. Freeing a slot. -/

theorem graph_release (h : a.graph i = some n) :
    (a.release i).graph = Function.update a.graph i none := by
  unfold release
  exact graph_set _ _ _ _ (lt_size_of_graph h)

theorem consistent_release (ha : a.Consistent) (h : a.graph i = some n) :
    (a.release i).Consistent := by
  have hi := lt_size_of_graph h
  have hnot : i ∉ a.free := by
    rw [ha.mem_free, graph_eq_some_iff.1 h]
    simp
  refine ⟨List.nodup_cons.2 ⟨hnot, ha.nodup⟩, ?_, ?_⟩
  · intro j
    show j ∈ i :: a.free ↔ (a.slots.setIfInBounds i none)[j]? = some none
    rw [List.mem_cons, ha.mem_free, Array.getElem?_setIfInBounds]
    by_cases hj : i = j
    · subst hj
      simp [hi]
    · rw [if_neg hj]
      simp [Ne.symm hj]
  · rw [graph_release h]
    apply ha.index.update
    intro m hm
    cases hm

/-- **Splicing** frees the source and moves its node, except for the number,
into the target. -/
theorem exists_splice {target source : Nat} (ha : a.Consistent) (hs : a.graph source = some n)
    (ht : a.graph target = some t) (hne : target ≠ source) :
    ∃ a', a.splice target source = .ok a' ∧ a'.Consistent ∧
      a'.graph = Function.update (Function.update a.graph source none) target
        (some { n with index := t.index }) := by
  have hgraph := graph_release hs
  have htarget : (a.release source).graph target = some t := by
    rw [hgraph, Function.update_of_ne hne, ht]
  obtain ⟨a', hmod, ha', hg⟩ := exists_modify (consistent_release ha hs) htarget
    (fun t => { n with index := t.index }) rfl
  refine ⟨a', ?_, ha', ?_⟩
  · unfold splice
    rw [graph_eq_some_iff.1 hs]
    exact hmod
  · rw [hg, hgraph]

end Arena

end LineScan
