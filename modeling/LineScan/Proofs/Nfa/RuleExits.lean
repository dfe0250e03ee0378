/-
  LineScan.Proofs.Nfa.RuleExits
  ─────────────────────────────
  **EVERY RULE HAS AN EXIT OF ITS OWN.**

  Seen from a node, the exit of a rule is a node without references that
  carries the anchor of the rule.  The paths from the node to the exit have
  the language of the rule, and every walk there fits the anchor
  (`Rule.ExitAt`).

  `G.OfRules start rules exits` says this of all rules at once: no two of them
  share an exit, and every other node leads on.  A chain of links has it
  because the rules that hang off it share no node (`Graph.ChainOf.cons`), and
  the finished automaton has it from the slots it was made of
  (`Nfa.Renumbers.exists_ofRules`).
-/
import LineScan.Proofs.Nfa.Finish
import LineScan.Proofs.Nfa.Shape

namespace LineScan

/-! ## §1. The exit of a rule. -/

variable {Ref : Type} {G : Graph Ref} {i j t : Ref} {next other : Option Ref} {r : Rule}

/-- **The exit of a rule**, seen from a node. -/
structure Rule.ExitAt (r : Rule) (G : Graph Ref) (i t : Ref) : Prop where
  /-- It leads nowhere, and carries the anchor of the rule. -/
  exit : ∃ n, G t = some n ∧ n.Exit r.anchor
  /-- The words of the rule lead there. -/
  language : runs G i t = r.language
  /-- What walks there fits the anchor. -/
  fits : ∀ w, Walk G i w t → r.anchor.Fits w

/-- A node from which the same walks lead to the exit sees it as well. -/
theorem Rule.ExitAt.of_walk_iff (h : r.ExitAt G j t)
    (hwalk : ∀ w, Walk G i w t ↔ Walk G j w t) : r.ExitAt G i t where
  exit := h.exit
  language := by
    rw [← h.language]
    ext w
    rw [mem_runs, mem_runs, path_iff_walk, path_iff_walk, hwalk]
  fits w hw := h.fits w ((hwalk w).1 hw)

/-- Walks from an epsilon node are those of one reference when the other one
does not lead to their end. -/
theorem Walk.of_epsilon_iff {w : Word} (hi : G.At i .epsilon next other) (hne : i ≠ t)
    (hj : next = some j ∨ other = some j)
    (honly : ∀ k, next = some k ∨ other = some k → k ≠ j → ¬ Walk G k w t) :
    Walk G i w t ↔ Walk G j w t := by
  constructor
  · intro h
    obtain ⟨k, hk, hw⟩ := h.exists_of_epsilon hi hne
    by_cases hkj : k = j
    · exact hkj ▸ hw
    · exact absurd hw (honly k hk hkj)
  · intro h
    obtain ⟨n, hn, hedge, hnext, hother⟩ := hi
    subst hnext hother
    exact .epsilon hn (Node.mem_epsilonTargets.2 ⟨hedge, Node.mem_refs.2 hj⟩) h

/-- An exit that one reference of an epsilon node leads to, and the other one
does not, is seen from that node. -/
theorem Rule.ExitAt.of_epsilon (h : r.ExitAt G j t) (hi : G.At i .epsilon next other)
    (hne : i ≠ t) (hj : next = some j ∨ other = some j)
    (honly : ∀ k, next = some k ∨ other = some k → k ≠ j → ∀ w, ¬ Walk G k w t) :
    r.ExitAt G i t :=
  h.of_walk_iff fun w => Walk.of_epsilon_iff hi hne hj fun k hk hkj => honly k hk hkj w

/-- What a rule has been built into has its exit. -/
theorem Fragment.Spans.exitAt {f : Fragment} {G : Graph Nat} {S : Set Nat}
    (hf : f.Spans G S r.language) (hs : f.Shape G S r.anchor) (hm : f.Marked G S r.anchor) :
    r.ExitAt G f.first f.last :=
  ⟨hs.exit, hf.language, fun _ hw => hm.fits hf hw⟩

/-! ## §2. All rules. -/

/-- **A graph of rules**, with an exit for each. -/
structure Graph.OfRules (G : Graph Ref) (start : Ref) (rules : List Rule) (exits : List Ref) :
    Prop where
  /-- No two rules share an exit. -/
  nodup : exits.Nodup
  /-- Every rule has its exit. -/
  each : List.Forall₂ (fun r t => r.ExitAt G start t) rules exits
  /-- All other nodes lead on. -/
  inner : ∀ i n, G i = some n → i ∉ exits → n.Inner
  /-- References lead from the start to every node. -/
  led : ∀ i n, G i = some n → G.Leads start i
  /-- First references lead from every node to a terminal one. -/
  halts : ∀ i n, G i = some n → G.Halts i

namespace Graph.OfRules

variable {start : Ref} {rules : List Rule} {exits : List Ref}

/-- Every exit belongs to a rule. -/
theorem exists_rule (hG : G.OfRules start rules exits) (ht : t ∈ exits) :
    ∃ r : Rule, r.ExitAt G start t := by
  obtain ⟨k, hk, rfl⟩ := List.mem_iff_getElem.1 ht
  have hk' : k < rules.length := hG.each.length_eq ▸ hk
  exact ⟨rules[k], hG.each.get hk' hk⟩

/-- The exits are the terminal nodes. -/
theorem isTerminal_iff (hG : G.OfRules start rules exits) {n : Node Ref} (hn : G i = some n) :
    n.isTerminal = true ↔ i ∈ exits := by
  show n.next.isNone = true ↔ _
  rw [Option.isNone_iff_eq_none]
  constructor
  · intro hnext
    by_contra hi
    exact (hG.inner i n hn hi).next hnext
  · intro hi
    obtain ⟨r, hr⟩ := hG.exists_rule hi
    obtain ⟨m, hm, hexit⟩ := hr.exit
    rw [hn] at hm
    cases hm
    exact hexit.next

end Graph.OfRules

/-! ## §3. Chains of rules. -/

namespace Fragment.Spans

variable {f : Fragment} {G : Graph Nat} {S : Set Nat} {L : Language UInt8} {i link : Nat}

/-- First references lead from a slot of a fragment to its exit, which is
terminal. -/
theorem halts (hf : f.Spans G S L) (hi : i ∈ S) : G.Halts i := by
  obtain ⟨n, hn, _, hnext, _⟩ := hf.exit
  exact ⟨f.last, n, hf.onward i hi, hn, by rw [Node.isTerminal, hnext]; rfl⟩

/-- So they do from a link that the fragment hangs off. -/
theorem halts_link {other : Option Nat} (hf : f.Spans G S L)
    (hlink : G link = some { Node.fresh link with next := some f.first, other := other }) :
    G.Halts link := by
  obtain ⟨t, n, hway, hn⟩ := hf.halts hf.first_mem
  have hstep : G.At link .epsilon (some f.first) other := ⟨_, hlink, rfl, rfl, rfl⟩
  exact ⟨t, n, (hstep.onward Edge.inAlphabet_epsilon).trans hway, hn⟩

end Fragment.Spans

/-- **A chain of rules**: the nodes of `V` belong to its links and to the
fragments of the rules. -/
structure Graph.ChainOf (G : Graph Nat) (link : Nat) (V : Set Nat) (rules : List Rule)
    (fragments : List Fragment) : Prop where
  /-- The first link belongs to it. -/
  link_mem : link ∈ V
  /-- There are such nodes. -/
  live : ∀ i ∈ V, ∃ n, G i = some n
  /-- References stay among them. -/
  closed : G.Closed V
  /-- First references lead from each of them to a terminal node. -/
  halts : ∀ i ∈ V, G.Halts i
  /-- References lead from the first link to each of them. -/
  led : ∀ i ∈ V, G.Leads link i
  /-- All but the exits lead on. -/
  inner : ∀ i ∈ V, i ∉ fragments.map Fragment.last → ∃ n, G i = some n ∧ n.Inner
  /-- The exits belong to it. -/
  last_mem : ∀ f ∈ fragments, f.last ∈ V
  /-- No two rules share an exit. -/
  nodup : (fragments.map Fragment.last).Nodup
  /-- Every rule has its exit. -/
  each : List.Forall₂ (fun r f => r.ExitAt G link f.last) rules fragments
  /-- The words from the link to a terminal node. -/
  language : accepted G link = Rule.languageOf rules

namespace Graph.ChainOf

variable {G : Graph Nat} {link further : Nat} {S V : Set Nat} {r : Rule} {rules : List Rule}
  {f : Fragment} {fs : List Fragment}

/-- A link with one rule. -/
theorem single (hlink : G link = some { Node.fresh link with next := some f.first })
    (hlinkS : link ∉ S) (hf : f.Spans G S r.language) (hs : f.Shape G S r.anchor)
    (hm : f.Marked G S r.anchor) : G.ChainOf link (insert link S) [r] [f] := by
  have hat : G.At link .epsilon (some f.first) none := ⟨_, hlink, rfl, rfl, rfl⟩
  refine ⟨.inl rfl, ?_, ?_, ?_, ?_, ?_, ?_, List.nodup_singleton _, ?_, ?_⟩
  · intro i hi
    rcases hi with hi | hi
    · exact ⟨_, hi ▸ hlink⟩
    · exact hf.live hi
  · intro i hi n hn j hj
    rcases hi with hi | hi
    · rw [hi, hlink] at hn
      cases hn
      have hj' : j = f.first := by simpa [Node.refs, Node.fresh] using hj
      exact .inr (hj' ▸ hf.first_mem)
    · exact .inr (hf.closed i hi n hn j hj)
  · intro i hi
    rcases hi with hi | hi
    · exact hi ▸ hf.halts_link hlink
    · exact hf.halts hi
  · intro i hi
    rcases hi with hi | hi
    · exact hi ▸ .refl _
    · exact .head (hat.refers (.inl rfl)) (hs.led i hi)
  · intro i hi hne
    rcases hi with hi | hi
    · rw [hi, hlink]
      exact ⟨_, rfl, Node.inner_of_epsilon rfl (Option.some_ne_none _) rfl⟩
    · exact hs.inner i hi fun heq => hne (heq ▸ List.mem_singleton_self _)
  · intro g hg
    rw [List.mem_singleton.1 hg]
    exact .inr hf.last_mem
  · have hne : link ≠ f.last := (ne_of_mem_of_not_mem hf.last_mem hlinkS).symm
    refine .cons ((hf.exitAt hs hm).of_epsilon hat hne (.inl rfl) ?_) .nil
    intro k hk hkf
    rcases hk with hk | hk
    · exact absurd (Option.some.inj hk).symm hkf
    · cases hk
  · rw [accepted_of_epsilon_one hat, hf.accepted_first, Rule.languageOf_singleton]

/-- **A link with a rule and a chain behind it.**  The rule and the chain share
no node, so nothing that enters the one reaches an exit of the other. -/
theorem cons (hV : G.ChainOf further V rules fs)
    (hlink : G link = some { Node.fresh link with next := some f.first, other := some further })
    (hlinkS : link ∉ S) (hlinkV : link ∉ V) (hSV : ∀ i ∈ S, i ∉ V)
    (hf : f.Spans G S r.language) (hs : f.Shape G S r.anchor) (hm : f.Marked G S r.anchor) :
    G.ChainOf link (insert link (S ∪ V)) (r :: rules) (f :: fs) := by
  have hat : G.At link .epsilon (some f.first) (some further) := ⟨_, hlink, rfl, rfl, rfl⟩
  refine ⟨.inl rfl, ?_, ?_, ?_, ?_, ?_, ?_, ?_, ?_, ?_⟩
  · intro i hi
    rcases hi with hi | hi | hi
    · exact ⟨_, hi ▸ hlink⟩
    · exact hf.live hi
    · exact hV.live i hi
  · intro i hi n hn j hj
    rcases hi with hi | hi | hi
    · rw [hi, hlink] at hn
      cases hn
      have hj' : j = f.first ∨ j = further := by simpa [Node.refs, Node.fresh] using hj
      -- the first reference enters the rule, the second one continues the chain
      rcases hj' with hj' | hj'
      · exact .inr (.inl (hj' ▸ hf.first_mem))
      · exact .inr (.inr (hj' ▸ hV.link_mem))
    · exact .inr (.inl (hf.closed i hi n hn j hj))
    · exact .inr (.inr (hV.closed i hi n hn j hj))
  · intro i hi
    rcases hi with hi | hi | hi
    · exact hi ▸ hf.halts_link hlink
    · exact hf.halts hi
    · exact hV.halts i hi
  · intro i hi
    rcases hi with hi | hi | hi
    · exact hi ▸ .refl _
    · exact .head (hat.refers (.inl rfl)) (hs.led i hi)
    · exact .head (hat.refers (.inr rfl)) (hV.led i hi)
  · intro i hi hne
    rw [List.map_cons, List.mem_cons, not_or] at hne
    rcases hi with hi | hi | hi
    · rw [hi, hlink]
      exact ⟨_, rfl, Node.inner_of_epsilon rfl (Option.some_ne_none _) rfl⟩
    · exact hs.inner i hi hne.1
    · exact hV.inner i hi hne.2
  · intro g hg
    rcases List.mem_cons.1 hg with hg | hg
    · exact .inr (.inl (hg ▸ hf.last_mem))
    · exact .inr (.inr (hV.last_mem g hg))
  · refine List.nodup_cons.2 ⟨fun hmem => ?_, hV.nodup⟩
    obtain ⟨g, hg, heq⟩ := List.mem_map.1 hmem
    exact hSV _ hf.last_mem (heq ▸ hV.last_mem g hg)
  · have hne : link ≠ f.last := (ne_of_mem_of_not_mem hf.last_mem hlinkS).symm
    refine .cons ((hf.exitAt hs hm).of_epsilon hat hne (.inl rfl) ?_) ?_
    · intro k hk hkf w hw
      rcases hk with hk | hk
      · exact hkf (Option.some.inj hk).symm
      · -- a walk along the chain stays in it, so it does not end in the rule
        cases hk
        exact hSV _ hf.last_mem (hw.mem_of_closed hV.closed hV.link_mem)
    · rw [List.forall₂_iff_zip]
      refine ⟨hV.each.length_eq, fun {r' g} hmem => ?_⟩
      have hlast := hV.last_mem g (List.of_mem_zip hmem).2
      have hne' : link ≠ g.last := (ne_of_mem_of_not_mem hlast hlinkV).symm
      refine ((List.forall₂_iff_zip.1 hV.each).2 hmem).of_epsilon hat hne' (.inr rfl) ?_
      intro k hk hkf w hw
      rcases hk with hk | hk
      · -- nor does a walk inside the rule end in the chain
        cases hk
        exact hSV _ (hw.mem_of_closed hf.closed hf.first_mem) hlast
      · exact hkf (Option.some.inj hk).symm
  · rw [accepted_of_epsilon_two hat, hf.accepted_first, hV.language, Rule.languageOf_cons]

/-- A chain that holds all nodes of a graph. -/
theorem ofRules (hV : G.ChainOf link V rules fs) (hall : ∀ i n, G i = some n → i ∈ V) :
    G.OfRules link rules (fs.map Fragment.last) where
  nodup := hV.nodup
  each := List.forall₂_map_right_iff.2 hV.each
  inner i n hn hi := by
    obtain ⟨m, hm, hinner⟩ := hV.inner i (hall i n hn) hi
    rw [hn] at hm
    cases hm
    exact hinner
  led i n hn := hV.led i (hall i n hn)
  halts i n hn := hV.halts i (hall i n hn)

end Graph.ChainOf

/-! ## §4. The finished automaton. -/

theorem Node.Renumbers.inner {Ref Ref' : Type} {slot : Ref' → Ref} {n : Node Ref} {m : Node Ref'}
    (h : n.Renumbers slot m) (hn : n.Inner) : m.Inner where
  next hnone := hn.next (by rw [← h.next, hnone]; rfl)
  other hedge := by
    have hnone := hn.other (h.edge ▸ hedge)
    rwa [← h.other, Option.map_eq_none_iff] at hnone
  anchor := h.anchor.trans hn.anchor

theorem Node.Renumbers.exit {Ref Ref' : Type} {slot : Ref' → Ref} {n : Node Ref} {m : Node Ref'}
    {anchor : Anchor} (h : n.Renumbers slot m) (hn : n.Exit anchor) : m.Exit anchor where
  edge := h.edge.trans hn.edge
  next := by rw [← Option.map_eq_none_iff (f := slot), h.next, hn.next]
  other := by rw [← Option.map_eq_none_iff (f := slot), h.other, hn.other]
  anchor := h.anchor.trans hn.anchor

namespace Nfa.Renumbers

variable {nfa : Nfa} {slot : Fin nfa.size → Nat} {G : Graph Nat} {start : Nat}
  {k : Fin nfa.size} {w : Word}

/-- Where references lead over the slots, they lead in the automaton. -/
theorem exists_leads (h : nfa.Renumbers slot G start) {i j : Nat} (hp : G.Leads i j) :
    ∀ k, slot k = i → ∃ t, slot t = j ∧ nfa.graph.Leads k t := by
  induction hp using Relation.ReflTransGen.head_induction_on with
  | refl => exact fun k hk => ⟨k, hk, .refl k⟩
  | head hstep _ ih =>
      intro k hk
      subst hk
      obtain ⟨n, hn, hj⟩ := hstep
      obtain ⟨m, hm, hr⟩ := h.node k
      rw [hn] at hm
      cases hm
      rw [Node.mem_refs, ← hr.next, ← hr.other, Option.map_eq_some_iff,
        Option.map_eq_some_iff] at hj
      obtain ⟨l, hl, hlj⟩ | ⟨l, hl, hlj⟩ := hj
      · obtain ⟨t, ht, hway⟩ := ih l hlj
        exact ⟨t, ht, .head ⟨_, rfl, Node.mem_refs.2 (.inl hl)⟩ hway⟩
      · obtain ⟨t, ht, hway⟩ := ih l hlj
        exact ⟨t, ht, .head ⟨_, rfl, Node.mem_refs.2 (.inr hl)⟩ hway⟩

/-- The node that came from an exit is one. -/
theorem exitAt (h : nfa.Renumbers slot G start) {r : Rule} (ht : r.ExitAt G start (slot k)) :
    r.ExitAt nfa.graph nfa.start k where
  exit := by
    obtain ⟨n, hn, hexit⟩ := ht.exit
    obtain ⟨m, hm, hr⟩ := h.node k
    rw [hn] at hm
    cases hm
    exact ⟨_, rfl, hr.exit hexit⟩
  language := by
    rw [← ht.language, ← h.start]
    ext w
    constructor
    · exact h.path
    · intro hp
      obtain ⟨t, htk, hp'⟩ := h.exists_path hp nfa.start rfl
      exact h.ascending.injective htk ▸ hp'
  fits w hw := ht.fits w (h.start ▸ h.walk hw)

/-- Every exit has a place in the automaton. -/
theorem exists_map_eq (honto : ∀ j m, G j = some m → ∃ k, slot k = j) {rules : List Rule}
    {exits : List Nat} (h : List.Forall₂ (fun r t => r.ExitAt G start t) rules exits) :
    ∃ ts : List (Fin nfa.size), ts.map slot = exits := by
  induction h with
  | nil => exact ⟨[], rfl⟩
  | cons hexit _ ih =>
      obtain ⟨n, hn, _⟩ := hexit.exit
      obtain ⟨k, hk⟩ := honto _ n hn
      obtain ⟨ts, hts⟩ := ih
      exact ⟨k :: ts, by rw [List.map_cons, hk, hts]⟩

/-- **Finishing keeps the exits of the rules.** -/
theorem exists_ofRules (h : nfa.Renumbers slot G start)
    (honto : ∀ j m, G j = some m → ∃ k, slot k = j) {rules : List Rule} {exits : List Nat}
    (hG : G.OfRules start rules exits) : ∃ ts, nfa.graph.OfRules nfa.start rules ts := by
  -- the slots of the exits are slots of nodes, and no two nodes have one slot
  obtain ⟨ts, rfl⟩ := exists_map_eq honto hG.each
  refine ⟨ts, hG.nodup.of_map slot, ?_, ?_, ?_, ?_⟩
  · exact (List.forall₂_map_right_iff.1 hG.each).imp fun r k => h.exitAt
  · intro i n hn hi
    cases hn
    obtain ⟨m, hm, hr⟩ := h.node i
    refine hr.inner (hG.inner _ m hm fun hmem => hi ?_)
    exact (List.mem_map_of_injective h.ascending.injective).1 hmem
  · intro i n _
    obtain ⟨m, hm, _⟩ := h.node i
    obtain ⟨t, ht, hway⟩ := h.exists_leads (hG.led _ m hm) nfa.start h.start
    exact h.ascending.injective ht ▸ hway
  · intro i n _
    obtain ⟨m, hm, _⟩ := h.node i
    exact h.halts (hG.halts _ m hm)

end Nfa.Renumbers

end LineScan
