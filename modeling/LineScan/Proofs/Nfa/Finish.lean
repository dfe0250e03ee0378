/-
  LineScan.Proofs.Nfa.Finish
  ──────────────────────────
  **CLOSING THE GAPS KEEPS THE LANGUAGE.**

  `Arena.finish` moves the live nodes together and renumbers all references.
  On an arena whose live nodes only refer to live nodes it succeeds, and the
  position of a node in the finished automaton tells its former slot
  (`Nfa.Renumbers`).  Runs of the automaton then are runs of the arena, node by
  node, and both accept the same words.
-/
import LineScan.Proofs.Nfa.Arena
import LineScan.Proofs.Nfa.Onward
import LineScan.Proofs.Nfa.Runs
import LineScan.Proofs.Nfa.Simulation

namespace LineScan

/-! ## §1. Positions and slots. -/

namespace Arena

variable {a : Arena} {i : Nat} {n : Node Nat}

theorem mem_nodes : (i, n) ∈ a.nodes ↔ a.graph i = some n := by
  rw [graph_eq_some_iff, nodes, List.mem_filterMap]
  constructor
  · intro h
    obtain ⟨⟨slot, k⟩, hmem, hk⟩ := h
    rw [List.mem_zipIdx_iff_getElem?, Array.getElem?_toList] at hmem
    cases slot with
    | none => cases hk
    | some m =>
        cases hk
        exact hmem
  · intro h
    refine ⟨(some n, i), ?_, rfl⟩
    rw [List.mem_zipIdx_iff_getElem?, Array.getElem?_toList]
    exact h

/-- The slot of the node at a position. -/
def slotAt (a : Arena) (k : Fin a.nodes.length) : Nat := (a.nodes.get k).1

/-- The nodes come in the order of their slots. -/
theorem strictMono_slotAt (a : Arena) : StrictMono a.slotAt := by
  have hindices : a.slots.toList.zipIdx.Pairwise fun x y => x.2 < y.2 := by
    rw [← List.pairwise_map (f := Prod.snd) (R := (· < ·)), List.zipIdx_map_snd]
    exact List.pairwise_lt_range'
  have hnodes : a.nodes.Pairwise fun x y => x.1 < y.1 := by
    refine List.pairwise_filterMap.2 (hindices.imp fun {x y} hlt => ?_)
    intro u hu v hv
    obtain ⟨_, _, rfl⟩ := Option.map_eq_some_iff.1 hu
    obtain ⟨_, _, rfl⟩ := Option.map_eq_some_iff.1 hv
    exact hlt
  intro k l hkl
  exact List.pairwise_iff_get.1 hnodes k l hkl

theorem exists_rank (h : a.graph i = some n) : ∃ k, a.rank? i = .ok k ∧ a.slotAt k = i := by
  unfold rank?
  cases hk : a.nodes.findFinIdx? fun entry => entry.1 == i with
  | none =>
      rw [List.findFinIdx?_eq_none_iff] at hk
      have hi := hk (i, n) (mem_nodes.2 h)
      simp at hi
  | some k =>
      rw [List.findFinIdx?_eq_some_iff] at hk
      exact ⟨k, rfl, by simpa [slotAt] using hk.1⟩

/-- Every reference leads to a node. -/
def Grounded (a : Arena) : Prop :=
  ∀ i n, a.graph i = some n → ∀ j ∈ n.refs, ∃ m, a.graph j = some m

end Arena

/-- What a node of the finished automaton has in common with the node it came
from. -/
structure Node.Renumbers {Ref Ref' : Type} (slot : Ref' → Ref) (n : Node Ref) (m : Node Ref') :
    Prop where
  /-- It consumes the same. -/
  edge : m.edge = n.edge
  /-- Its first reference leads to the same place. -/
  next : m.next.map slot = n.next
  /-- So does its second one. -/
  other : m.other.map slot = n.other
  /-- It carries the same anchor. -/
  anchor : m.anchor = n.anchor
  /-- Its number is that of the same place. -/
  index : slot m.index = n.index

/-- A finished automaton, seen from the nodes it was made of. -/
structure Nfa.Renumbers (nfa : Nfa) (slot : Fin nfa.size → Nat) (G : Graph Nat) (start : Nat) :
    Prop where
  /-- It starts where the graph does. -/
  start : slot nfa.start = start
  /-- Each of its nodes comes from a node of the graph. -/
  node : ∀ k, ∃ n, G (slot k) = some n ∧ n.Renumbers slot (nfa.node k)
  /-- The nodes keep their order. -/
  ascending : StrictMono slot
  /-- Every node carries its own position. -/
  numbered : ∀ k, (nfa.node k).index = k

/-! ## §2. Finishing succeeds. -/

/-- A function that succeeds on every entry of a vector succeeds on the
vector. -/
theorem Vector.exists_mapM {α β ε : Type} {size : Nat} {f : α → Except ε β}
    (xs : Vector α size) {R : Fin size → β → Prop}
    (h : ∀ k, ∃ y, f (xs.get k) = .ok y ∧ R k y) :
    ∃ ys : Vector β size, xs.mapM f = .ok ys ∧ ∀ k, R k (ys.get k) := by
  choose g hg using h
  refine ⟨Vector.ofFn g, ?_, ?_⟩
  · have hxs : xs = (Vector.ofFn id).map xs.get := by
      ext k hk
      simp [Vector.get]
    have hf : f ∘ xs.get = fun k => pure (g k) := by
      funext k
      exact (hg k).1
    -- a function that always succeeds is mapped, entry by entry
    rw [hxs, Vector.mapM_map, hf, Vector.mapM_pure]
    show Except.ok _ = Except.ok _
    congr 1
    ext k hk
    simp
  · intro k
    have hk : (Vector.ofFn g).get k = g k := Vector.getElem_ofFn k.isLt
    rw [hk]
    exact (hg k).2

namespace Arena

variable {a : Arena} {i : Nat} {n : Node Nat}

/-- The references of a node can be renumbered when they lead to nodes. -/
theorem exists_renumber (ha : a.Consistent) (hg : a.Grounded) (hn : a.graph i = some n) :
    ∃ m, n.renumber a.rank? = .ok m ∧ n.Renumbers a.slotAt m := by
  have href : ∀ r : Option Nat, (∀ j, r = some j → j ∈ n.refs) →
      ∃ r', Node.renumber.renumberRef a.rank? r = .ok r' ∧ r'.map a.slotAt = r := by
    intro r hr
    cases r with
    | none => exact ⟨none, rfl, rfl⟩
    | some j =>
        obtain ⟨m, hm⟩ := hg i n hn j (hr j rfl)
        obtain ⟨k, hk, hkj⟩ := exists_rank hm
        refine ⟨some k, ?_, ?_⟩
        · simp only [Node.renumber.renumberRef, hk]
          rfl
        · rw [Option.map_some, hkj]
  -- the node's own number comes first, as the slot of the node itself
  obtain ⟨index, hindex, hindex'⟩ := exists_rank hn
  obtain ⟨next, hnext, hnext'⟩ := href n.next fun j hj => Node.mem_refs.2 (.inl hj)
  obtain ⟨other, hother, hother'⟩ := href n.other fun j hj => Node.mem_refs.2 (.inr hj)
  refine ⟨⟨next, other, n.edge, n.anchor, index⟩, ?_, rfl, hnext', hother', rfl,
    hindex'.trans (ha.index i n hn).symm⟩
  simp only [Node.renumber, ha.index i n hn, hindex, hnext, hother, bind, Except.bind]
  rfl

/-- **Finishing succeeds** when the start and every reference lead to a node,
and finds a place for every node. -/
theorem exists_finish (ha : a.Consistent) (hg : a.Grounded) (hi : a.graph i = some n) :
    ∃ nfa slot, a.finish i = .ok nfa ∧ nfa.Renumbers slot a.graph i ∧
      ∀ j m, a.graph j = some m → ∃ k, slot k = j := by
  have hentry : ∀ k, ∃ m, (a.nodes.get k).2.renumber a.rank? = .ok m ∧
      ∃ n, a.graph (a.slotAt k) = some n ∧ n.Renumbers a.slotAt m := by
    intro k
    have hn : a.graph (a.slotAt k) = some (a.nodes.get k).2 :=
      mem_nodes.1 (List.get_mem a.nodes k)
    obtain ⟨m, hm, hnm⟩ := exists_renumber ha hg hn
    exact ⟨m, hm, _, hn, hnm⟩
  obtain ⟨nodes, hnodes, hnode⟩ :=
    Vector.exists_mapM (f := fun entry : Nat × Node Nat => entry.2.renumber a.rank?)
      ⟨a.nodes.toArray, List.size_toArray⟩ hentry
  obtain ⟨start, hstart, hstart'⟩ := exists_rank hi
  have hnumbered : ∀ k, (nodes.get k).index = k := by
    intro k
    obtain ⟨n, hn, hr⟩ := hnode k
    exact a.strictMono_slotAt.injective (hr.index.trans (ha.index _ n hn))
  refine ⟨⟨a.nodes.length, nodes, start⟩, a.slotAt, ?_,
    ⟨hstart', hnode, a.strictMono_slotAt, hnumbered⟩, ?_⟩
  · simp only [finish, hnodes, hstart, bind, Except.bind]
    rfl
  · intro j m hm
    obtain ⟨k, _, hk⟩ := exists_rank hm
    exact ⟨k, hk⟩

end Arena

/-! ## §3. Runs of the finished automaton. -/

namespace Node.Renumbers

variable {Ref Ref' : Type} {slot : Ref' → Ref} {n : Node Ref} {m : Node Ref'} {j : Ref'}
  {b : UInt8}

/-- A node leads where the one it came from does without consuming
anything. -/
theorem mem_epsilonTargets (h : n.Renumbers slot m) (hj : j ∈ m.epsilonTargets) :
    slot j ∈ n.epsilonTargets := by
  rw [Node.mem_epsilonTargets, Node.mem_refs] at hj ⊢
  rw [← h.edge, ← h.next, ← h.other]
  obtain ⟨he, hj⟩ := hj
  rcases hj with hj | hj
  · exact ⟨he, .inl (by rw [hj]; rfl)⟩
  · exact ⟨he, .inr (by rw [hj]; rfl)⟩

/-- It goes where the other one goes on a byte. -/
theorem byteTarget?_eq_some (h : n.Renumbers slot m) (hj : m.byteTarget? b = some j) :
    n.byteTarget? b = some (slot j) := by
  rw [Node.byteTarget?_eq_some] at hj ⊢
  rw [← h.edge, ← h.next, hj.2]
  exact ⟨hj.1, rfl⟩

end Node.Renumbers

namespace Nfa.Renumbers

variable {nfa : Nfa} {slot : Fin nfa.size → Nat} {G : Graph Nat} {start : Nat}
  {k : Fin nfa.size} {w : Word} {n : Node Nat}

theorem isTerminal_eq (h : nfa.Renumbers slot G start) (hn : G (slot k) = some n) :
    n.isTerminal = (nfa.node k).isTerminal := by
  obtain ⟨m, hm, hr⟩ := h.node k
  rw [hn] at hm
  cases hm
  rw [Node.isTerminal, Node.isTerminal, ← hr.next, Option.isNone_map]

/-- A walk of the automaton is a walk over the slots. -/
theorem walk (h : nfa.Renumbers slot G start) {t : Fin nfa.size} (hp : Walk nfa.graph k w t) :
    Walk G (slot k) w (slot t) := by
  induction hp with
  | nil => exact .nil _
  | epsilon hn hj _ ih =>
      cases hn
      obtain ⟨n, hn, hr⟩ := h.node _
      exact .epsilon hn (hr.mem_epsilonTargets hj) ih
  | byte hn hj _ ih =>
      cases hn
      obtain ⟨n, hn, hr⟩ := h.node _
      exact .byte hn (hr.byteTarget?_eq_some hj) ih

/-- A run of the automaton is a run over the slots. -/
theorem path (h : nfa.Renumbers slot G start) {t : Fin nfa.size} (hp : Path nfa.graph k w t) :
    Path G (slot k) w (slot t) := by
  rw [path_iff_walk] at hp ⊢
  exact ⟨hp.1, h.walk hp.2⟩

/-- A run over the slots comes from a run of the automaton. -/
theorem exists_path (h : nfa.Renumbers slot G start) {i j : Nat} (hp : Path G i w j) :
    ∀ k, slot k = i → ∃ t, slot t = j ∧ Path nfa.graph k w t := by
  induction hp with
  | nil => exact fun k hk => ⟨k, hk, .nil _⟩
  | epsilon hn hj _ ih =>
      intro k hk
      subst hk
      obtain ⟨n, hn', hr⟩ := h.node k
      rw [hn'] at hn
      cases hn
      rw [Node.mem_epsilonTargets, Node.mem_refs, ← hr.edge, ← hr.next, ← hr.other,
        Option.map_eq_some_iff, Option.map_eq_some_iff] at hj
      obtain ⟨he, ⟨l, hl, hlj⟩ | ⟨l, hl, hlj⟩⟩ := hj
      · obtain ⟨t, ht, hp⟩ := ih l hlj
        exact ⟨t, ht, .epsilon rfl (Node.mem_epsilonTargets.2 ⟨he, Node.mem_refs.2 (.inl hl)⟩) hp⟩
      · obtain ⟨t, ht, hp⟩ := ih l hlj
        exact ⟨t, ht, .epsilon rfl (Node.mem_epsilonTargets.2 ⟨he, Node.mem_refs.2 (.inr hl)⟩) hp⟩
  | byte hn hb hj _ ih =>
      intro k hk
      subst hk
      obtain ⟨n, hn', hr⟩ := h.node k
      rw [hn'] at hn
      cases hn
      rw [Node.byteTarget?_eq_some, ← hr.edge, ← hr.next, Option.map_eq_some_iff] at hj
      obtain ⟨he, l, hl, hlj⟩ := hj
      obtain ⟨t, ht, hp⟩ := ih l hlj
      exact ⟨t, ht, .byte rfl hb (Node.byteTarget?_eq_some.2 ⟨he, hl⟩) hp⟩

/-- Where first references lead from over the slots, they lead from in the
automaton. -/
theorem exists_onward (h : nfa.Renumbers slot G start) {i j : Nat} (hp : G.Onward i j) :
    ∀ k, slot k = i → ∃ t, slot t = j ∧ nfa.graph.Onward k t := by
  induction hp using Relation.ReflTransGen.head_induction_on with
  | refl => exact fun k hk => ⟨k, hk, .refl k⟩
  | head hstep _ ih =>
      intro k hk
      subst hk
      obtain ⟨n, hn, hnext, hedge⟩ := hstep
      obtain ⟨m, hm, hr⟩ := h.node k
      rw [hn] at hm
      cases hm
      rw [← hr.next, Option.map_eq_some_iff] at hnext
      obtain ⟨l, hl, hlj⟩ := hnext
      obtain ⟨t, ht, hway⟩ := ih l hlj
      exact ⟨t, ht, .head ⟨_, rfl, hl, hr.edge ▸ hedge⟩ hway⟩

/-- A node leads onward to a terminal one when its slot does. -/
theorem halts (h : nfa.Renumbers slot G start) (hk : G.Halts (slot k)) : nfa.graph.Halts k := by
  obtain ⟨j, n, hway, hn, hterm⟩ := hk
  obtain ⟨t, ht, hway'⟩ := h.exists_onward hway k rfl
  subst ht
  exact ⟨t, _, hway', rfl, (h.isTerminal_eq hn).symm.trans hterm⟩

/-- **A finished automaton accepts the words of the graph it was made of.** -/
theorem accepts_iff (h : nfa.Renumbers slot G start) (w : Word) :
    nfa.accepts w = true ↔ w ∈ accepted G start := by
  rw [Nfa.accepts_iff_path]
  constructor
  · intro hw
    obtain ⟨t, hp, hterm⟩ := hw
    obtain ⟨n, hn, _⟩ := h.node t
    refine ⟨slot t, n, ?_, hn, (h.isTerminal_eq hn).trans hterm⟩
    rw [← h.start]
    exact h.path hp
  · intro hw
    obtain ⟨j, n, hp, hn, hterm⟩ := hw
    obtain ⟨t, ht, hp'⟩ := h.exists_path hp nfa.start h.start
    subst ht
    exact ⟨t, hp', (h.isTerminal_eq hn).symm.trans hterm⟩

end Nfa.Renumbers

end LineScan
