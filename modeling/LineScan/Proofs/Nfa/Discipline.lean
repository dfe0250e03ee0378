/-
  LineScan.Proofs.Nfa.Discipline
  ──────────────────────────────
  **WHAT BUILDING AN EXPRESSION DOES TO THE ARENA.**

  Expressions are built inside each other, in one arena: an operand is built
  where its siblings have been built already, behind the nodes of earlier
  rules, and in slots that splices have freed.  What is built must be an
  island all the same (`Fragment.Disciplined`): the nodes that are new refer to
  new nodes only, no older node refers to them or has changed, and nothing at
  all refers to the entrance.  That last point is what allows the next splice
  to move the entrance into another slot.

  `r.CalledIn a` says that the construction of some rules builds `r` in the
  arena `a`.  One case stands for each place in `Regex.build`,
  `Regex.buildAtLineStart` and `buildChain` where an expression is built.  The
  construction need not come to its end: what is built for a text that turns
  out to be no pattern is included.

      one step     what is written refers to nodes         (`Grounded.extend`)
      one rule     every link of a chain                   (`Opens.ready`)
      one call     operands where siblings have been built (`CalledIn.sound`)

  In such an arena all references lead to nodes, so no older node can refer to
  a slot that was empty, and the discipline follows from what is known of a
  single construction (`Regex.build_disciplined`).
-/
import LineScan.Proofs.Nfa.Finish
import LineScan.Proofs.Nfa.RuleChain

namespace LineScan

/-! ## §1. Islands. -/

/-- A slot that had no node and has one now. -/
def Graph.Created (G G' : Graph Nat) (i : Nat) : Prop := G i = none ∧ ∃ n, G' i = some n

/-- **The new nodes are an island with one entrance and one exit.** -/
structure Fragment.Disciplined (f : Fragment) (G G' : Graph Nat) : Prop where
  /-- The entrance is new. -/
  first_created : G.Created G' f.first
  /-- The exit is new. -/
  last_created : G.Created G' f.last
  /-- They are different slots. -/
  first_ne_last : f.first ≠ f.last
  /-- The exit has no references, an epsilon edge and no anchor. -/
  exit : ∃ n, G' f.last = some n ∧ n.Exit Anchor.none
  /-- No node refers to the entrance. -/
  first_unreferred : ∀ i, ¬ G'.Refers i f.first
  /-- The older nodes are still there and have not changed. -/
  older_kept : ∀ i n, G i = some n → G' i = some n
  /-- New nodes refer to new nodes. -/
  created_closed : ∀ i j, G.Created G' i → G'.Refers i j → G.Created G' j
  /-- Older nodes do not. -/
  older_apart : ∀ i j n, G i = some n → G'.Refers i j → ¬ G.Created G' j
  /-- Every new node is led to from the entrance, and leads to the exit. -/
  between : ∀ i, G.Created G' i → G'.Leads f.first i ∧ G'.Leads i f.last

namespace Fragment.BuiltOn

variable {f : Fragment} {a b : Arena} {S : Set Nat} {L : Language UInt8} {i : Nat} {n : Node Nat}

/-- **The new nodes are those of the fragment.** -/
theorem created_iff (hf : f.BuiltOn a b S L) : a.graph.Created b.graph i ↔ i ∈ S := by
  constructor
  · rintro ⟨hnone, n, hn⟩
    by_contra hi
    rw [hf.frame i hi, hnone] at hn
    cases hn
  · intro hi
    exact ⟨hf.unused i hi, hf.spans.live hi⟩

theorem older_kept (hf : f.BuiltOn a b S L) (hn : a.graph i = some n) : b.graph i = some n := by
  have hi : i ∉ S := by
    intro hi
    rw [hf.unused i hi] at hn
    cases hn
  rw [hf.frame i hi, hn]

/-- Where all references lead to nodes, none leads to a slot that was empty. -/
theorem not_mem_of_refers (hf : f.BuiltOn a b S L) (hg : a.Grounded) (hn : a.graph i = some n)
    {j : Nat} (h : b.graph.Refers i j) : j ∉ S := by
  obtain ⟨m, hm, hj⟩ := h
  rw [hf.older_kept hn] at hm
  cases hm
  obtain ⟨m', hm'⟩ := hg i n hn j hj
  intro hjS
  rw [hf.unused j hjS] at hm'
  cases hm'

/-- **What has been built is an island**, if all references led to nodes. -/
theorem disciplined (hf : f.BuiltOn a b S L) (hs : f.Shape b.graph S Anchor.none)
    (hg : a.Grounded) : f.Disciplined a.graph b.graph where
  first_created := hf.created_iff.2 hf.spans.first_mem
  last_created := hf.created_iff.2 hf.spans.last_mem
  first_ne_last := hf.spans.first_ne_last
  exit := hs.exit
  first_unreferred i h := by
    -- a new node avoids the entrance, an older one avoids all new nodes
    by_cases hi : i ∈ S
    · obtain ⟨n, hn, hrefs⟩ := h
      exact (hf.spans.mem_of_mem_refs hi hn hrefs).2 rfl
    · obtain ⟨n, hn, _⟩ := id h
      rw [hf.frame i hi] at hn
      exact hf.not_mem_of_refers hg hn h hf.spans.first_mem
  older_kept i n hn := hf.older_kept hn
  created_closed i j hi h := by
    rw [hf.created_iff] at hi ⊢
    exact hf.spans.closed.mem_of_refers hi h
  older_apart i j n hn h := by
    rw [hf.created_iff]
    exact hf.not_mem_of_refers hg hn h
  between i hi := by
    rw [hf.created_iff] at hi
    exact ⟨hs.led i hi, (hf.spans.onward i hi).leads⟩

end Fragment.BuiltOn

/-! ## §2. References that lead to nodes. -/

namespace Arena

variable {a b : Arena} {W : Set Nat}

/-- An arena in order in which all references lead to nodes. -/
structure Sound (a : Arena) : Prop where
  /-- The free list and the node numbers are in order. -/
  consistent : a.Consistent
  /-- References lead to nodes. -/
  grounded : a.Grounded

/-- **Writing to some slots** keeps references to nodes, if no node is lost
and what is written refers to nodes. -/
theorem Grounded.extend (ha : a.Grounded)
    (hkeep : ∀ i n, a.graph i = some n → ∃ m, b.graph i = some m)
    (hrest : ∀ i, i ∉ W → b.graph i = a.graph i)
    (hW : ∀ i ∈ W, ∀ n, b.graph i = some n → ∀ j ∈ n.refs, ∃ m, b.graph j = some m) :
    b.Grounded := by
  intro i n hn j hj
  by_cases hi : i ∈ W
  · exact hW i hi n hn j hj
  · rw [hrest i hi] at hn
    obtain ⟨m, hm⟩ := ha i n hn j hj
    exact hkeep j m hm

/-- Writing to one slot. -/
theorem Grounded.update (ha : a.Grounded) {i : Nat} {n : Node Nat}
    (hgraph : b.graph = Function.update a.graph i (some n))
    (hrefs : ∀ j ∈ n.refs, ∃ m, a.graph j = some m) : b.Grounded := by
  have hkeep : ∀ k m, a.graph k = some m → ∃ m', b.graph k = some m' := by
    intro k m hm
    rw [hgraph]
    by_cases hk : k = i
    · exact ⟨n, by rw [hk, Function.update_self]⟩
    · exact ⟨m, by rw [Function.update_of_ne hk, hm]⟩
  refine ha.extend (W := {i}) hkeep ?_ ?_
  · intro k hk
    rw [hgraph, Function.update_of_ne hk]
  · rintro k rfl m hm j hj
    rw [hgraph, Function.update_self] at hm
    cases hm
    obtain ⟨m', hm'⟩ := hrefs j hj
    exact hkeep j m' hm'

theorem sound_empty : Arena.empty.Sound := by
  refine ⟨consistent_empty, ?_⟩
  intro i n hn
  simp [graph, empty] at hn

/-- Handing out a slot. -/
theorem Sound.alloc (ha : a.Sound) {i : Nat} (h : a.alloc = (i, b)) :
    b.Sound ∧ b.graph i = some (Node.fresh i) := by
  obtain ⟨j, c, hc, hcons, _, hgraph⟩ := exists_alloc ha.consistent
  rw [h] at hc
  cases hc
  -- a fresh node refers to nothing
  have hground : b.Grounded := ha.grounded.update hgraph fun j hj => absurd hj List.not_mem_nil
  exact ⟨⟨hcons, hground⟩, by rw [hgraph, Function.update_self]⟩

/-- Changing the edge of a node. -/
theorem Sound.setEdge (ha : a.Sound) {i : Nat} {n : Node Nat} {edge : Edge}
    (hn : a.graph i = some n) (h : a.setEdge i edge = .ok b) : b.Sound := by
  obtain ⟨c, hc, hcons, hgraph⟩ := exists_setEdge ha.consistent hn edge
  rw [h] at hc
  cases hc
  -- the references are those that the node had
  exact ⟨hcons, ha.grounded.update hgraph fun j hj => ha.grounded i n hn j hj⟩

/-- Building keeps references to nodes. -/
theorem Sound.built (ha : a.Sound) {f : Fragment} {S : Set Nat} {L : Language UInt8}
    (hf : f.BuiltOn a b S L) : b.Sound := by
  refine ⟨hf.consistent, ha.grounded.extend (W := S) ?_ hf.frame ?_⟩
  · intro i n hn
    exact ⟨n, hf.older_kept hn⟩
  · intro i hi n hn j hj
    exact hf.spans.live (hf.spans.closed i hi n hn j hj)

/-- Building an expression keeps references to nodes. -/
theorem Sound.build (ha : a.Sound) {r : Regex} {f : Fragment} (h : r.build a = .ok (f, b)) :
    b.Sound := by
  obtain ⟨g, c, S, hbuild, hg⟩ := r.exists_build ha.consistent
  rw [h] at hbuild
  cases hbuild
  exact ha.built hg

end Arena

/-! ## §3. Where expressions are built. -/

/-- A link of the chain of rules waits for a rule: some rules have been built,
and hung off the links before it. -/
inductive Opens : Nat → Arena → Prop where
  /-- The first link. -/
  | first {link : Nat} {a : Arena} : Arena.empty.alloc = (link, a) → Opens link a
  /-- A link behind one that a rule has been hung off. -/
  | further {link next : Nat} {r : Rule} {f : Fragment} {a b c d e : Arena} :
      Opens link a → r.build a = .ok (f, b) → b.setNext link (some f.first) = .ok c →
        c.alloc = (next, d) → d.setOther link (some next) = .ok e → Opens next e

/-- **The construction of some rules builds the expression in the arena.** -/
inductive Regex.CalledIn : Regex → Arena → Prop where
  /-- The body of a rule. -/
  | body {r : Regex} {link : Nat} {a : Arena} : Opens link a → CalledIn r a
  /-- The body of a rule that begins a line. -/
  | lineStart {r : Regex} {link first : Nat} {a b c : Arena} :
      Opens link a → a.alloc = (first, b) →
        b.setEdge first (.byte Symbol.lineFeed.toByte) = .ok c → CalledIn r c
  /-- The first of two expressions. -/
  | catFirst {r s : Regex} {a : Arena} : CalledIn (.cat r s) a → CalledIn r a
  /-- The one behind it. -/
  | catSecond {r s : Regex} {f : Fragment} {a b : Arena} :
      CalledIn (.cat r s) a → r.build a = .ok (f, b) → CalledIn s b
  /-- The first of two alternatives. -/
  | altLeft {r s : Regex} {a : Arena} : CalledIn (.alt r s) a → CalledIn r a
  /-- The other one. -/
  | altRight {r s : Regex} {f : Fragment} {a b : Arena} :
      CalledIn (.alt r s) a → r.build a = .ok (f, b) → CalledIn s b
  /-- What is iterated. -/
  | star {r : Regex} {a : Arena} : CalledIn (.star r) a → CalledIn r a
  /-- What is iterated at least once. -/
  | plus {r : Regex} {a : Arena} : CalledIn (.plus r) a → CalledIn r a
  /-- What may be left out. -/
  | optional {r : Regex} {a : Arena} : CalledIn (.optional r) a → CalledIn r a

/-- Hanging a rule off a link and putting a link behind it keeps references to
nodes. -/
theorem Hung.sound {link next : Nat} {a b c : Arena} {f : Fragment} {S : Set Nat} {r : Rule}
    (ha : a.Sound) (hc : c.Consistent) (h : Hung link a b f S r)
    (hl : Links link next f b.graph c.graph) : c.Sound := by
  have hkept : ∀ i, i ∈ S → c.graph i = b.graph i := by
    intro i hi
    obtain ⟨n, hn⟩ := h.spans.live hi
    exact hl.rest i (ne_of_mem_of_not_mem hi h.link_not_mem) (Fragment.ne_of_unused hn hl.unused)
  have hrest : ∀ i, i ∉ insert link (insert next S) → c.graph i = a.graph i := by
    intro i hi
    rw [Set.mem_insert_iff, Set.mem_insert_iff, not_or, not_or] at hi
    rw [hl.rest i hi.1 hi.2.1, h.frame i hi.2.2 hi.1]
  have hlive : ∀ i ∈ insert link (insert next S), ∃ n, c.graph i = some n := by
    rintro i (rfl | rfl | hi)
    · exact ⟨_, hl.entry⟩
    · exact ⟨_, hl.fresh⟩
    · rw [hkept i hi]
      exact h.spans.live hi
  refine ⟨hc, ha.grounded.extend ?_ hrest ?_⟩
  · intro i n hn
    by_cases hi : i ∈ insert link (insert next S)
    · exact hlive i hi
    · exact ⟨n, (hrest i hi).trans hn⟩
  · rintro i (rfl | rfl | hi) n hn j hj
    · -- the link refers to the entrance of the rule and to the next link
      rw [hl.entry] at hn
      cases hn
      rcases Node.mem_refs.1 hj with hj | hj
      · cases hj
        exact hlive _ (.inr (.inr h.spans.first_mem))
      · cases hj
        exact hlive _ (.inr (.inl rfl))
    · rw [hl.fresh] at hn
      cases hn
      cases hj
    · rw [hkept i hi] at hn
      exact hlive j (.inr (.inr (h.spans.closed i hi n hn j hj)))

/-- **A link that waits for a rule** is a fresh node of a sound arena. -/
theorem Opens.ready {link : Nat} {a : Arena} (h : Opens link a) :
    a.Sound ∧ a.graph link = some (Node.fresh link) := by
  induction h with
  | first h =>
      exact Arena.sound_empty.alloc h
  | @further link next r f a b c d e _ hbuild hnext halloc hother ih =>
      obtain ⟨ha, hfresh⟩ := ih
      -- the construction has done what it does in general
      obtain ⟨f', b', c', S, hbuild', hnext', hung⟩ := r.exists_build_setNext ha.consistent hfresh
      rw [hbuild] at hbuild'
      cases hbuild'
      rw [hnext] at hnext'
      cases hnext'
      obtain ⟨next', d', e', halloc', hother', he, hlinks⟩ := hung.exists_further
      rw [halloc] at halloc'
      cases halloc'
      rw [hother] at hother'
      cases hother'
      exact ⟨hung.sound ha he hlinks, hlinks.fresh⟩

namespace Regex.CalledIn

variable {r : Regex} {a : Arena}

/-- **Expressions are built in sound arenas.** -/
theorem sound (h : r.CalledIn a) : a.Sound := by
  induction h with
  | body hopens => exact hopens.ready.1
  | lineStart hopens halloc hedge =>
      obtain ⟨hb, hfresh⟩ := hopens.ready.1.alloc halloc
      exact hb.setEdge hfresh hedge
  | catFirst _ ih => exact ih
  | catSecond _ hbuild ih => exact ih.build hbuild
  | altLeft _ ih => exact ih
  | altRight _ hbuild ih => exact ih.build hbuild
  | star _ ih => exact ih
  | plus _ ih => exact ih
  | optional _ ih => exact ih

end Regex.CalledIn

/-- **Wherever an expression is built, it is built as an island**, and building
it succeeds. -/
theorem Regex.build_disciplined {r : Regex} {a : Arena} (h : r.CalledIn a) :
    ∃ f b, r.build a = .ok (f, b) ∧ f.Disciplined a.graph b.graph := by
  obtain ⟨f, b, S, hbuild, hf, hs⟩ := r.exists_build_shape h.sound.consistent
  exact ⟨f, b, hbuild, hf.disciplined hs h.sound.grounded⟩

/-- In a rule that begins a line, an iteration behind two symbols: joining them
has freed a slot, which the iteration takes. -/
theorem Regex.build_disciplined_reused :
    ∃ a f b, (Regex.plus (.symbol Symbol.dash)).CalledIn a ∧ a.free = [4] ∧
      (Regex.plus (.symbol Symbol.dash)).build a = .ok (f, b) ∧ b.free = [] ∧
      f.Disciplined a.graph b.graph := by
  let both : Regex := .cat (.symbol Symbol.lineFeed) (.symbol Symbol.carriageReturn)
  let arena : Arena := ⟨#[some (Node.fresh 0), some { Node.fresh 1 with
    edge := .byte Symbol.lineFeed.toByte }], [], 0⟩
  have hwhole : (Regex.cat both (.plus (.symbol Symbol.dash))).CalledIn arena :=
    .lineStart (.first rfl) rfl rfl
  obtain ⟨g, a, hboth, _⟩ := Regex.build_disciplined hwhole.catFirst
  have hcall := hwhole.catSecond hboth
  obtain ⟨f, b, hbuild, hf⟩ := Regex.build_disciplined hcall
  have hfree : (match both.build arena with
      | .error _ => false
      | .ok (_, a) => decide (a.free = [4]) &&
          match (Regex.plus (.symbol Symbol.dash)).build a with
          | .error _ => false
          | .ok (_, b) => decide (b.free = [])) = true := by decide +kernel
  rw [hboth] at hfree
  simp only [hbuild, Bool.and_eq_true, decide_eq_true_eq] at hfree
  exact ⟨a, f, b, hcall, hfree.1, hbuild, hfree.2, hf⟩

end LineScan
