/-
  LineScan.Proofs.Nfa.RuleChain
  ─────────────────────────────
  **RULES, AND THE CHAIN THEY HANG OFF.**

  A rule is an expression with something to consume before it or behind it,
  and stays a fragment (`Rule.exists_build_shape`).  A chain is not one: it has
  an exit for every rule.  What is said of it is which words lead from its
  first link to some terminal node: those of the first rule, by the first
  reference of the link, and those of the further rules, by the second one.

  The two ways do not meet, so what walks from a link to the exit of a rule
  walks through that rule alone.
-/
import LineScan.Proofs.Nfa.RuleExits
import LineScan.Proofs.Nfa.Thompson

namespace LineScan

open Computability

/-! ## §1. One rule. -/

namespace Fragment.BuiltOn

variable {f g : Fragment} {a a' b : Arena} {S : Set Nat} {L : Language UInt8}

/-- A line end behind a fragment. -/
theorem endLine (hf : f.BuiltOn a a' S L) (h : g.EndsLine f a'.graph b.graph)
    (hb : b.Consistent) : g.BuiltOn a b (S ∪ {g.last}) (L * oneSymbol lineEnds) := by
  have hlast := hf.spans.not_mem_of_none h.last_unused
  obtain ⟨l, hl, _, _, hlother⟩ := hf.graph_last
  refine ⟨hb, ?_, ?_, ?_⟩
  · intro k hk
    rcases hk with hk | hk
    · exact hf.unused k hk
    · rw [hk, hf.none_of_none h.last_unused]
  · intro k hk
    have hkS : k ∉ S := fun h => hk (.inl h)
    rw [h.rest k (fun h => hkS (h ▸ hf.spans.last_mem)) (fun h => hk (.inr h)), hf.frame k hkS]
  · have hspans := hf.spans.consumeBehind (by simp) (Edge.inAlphabet_cls _) hlast
      ⟨_, h.back l hl, rfl, rfl, hlother⟩ ⟨_, h.exit, rfl, rfl, rfl⟩
      fun k hk hne => h.rest k hne (ne_of_mem_of_not_mem hk hlast)
    rw [← h.first_eq, Edge.symbols_lineEnd] at hspans
    exact hspans

/-- The anchor of an exit does not matter. -/
theorem setAnchor {anchor : Anchor} (hf : f.BuiltOn a a' S L) (hb : b.Consistent)
    (hlast : ∀ l, a'.graph f.last = some l → b.graph f.last = some { l with anchor })
    (hrest : ∀ k, k ≠ f.last → b.graph k = a'.graph k) : f.BuiltOn a b S L := by
  obtain ⟨l, hl, hledge, hlnext, hlother⟩ := hf.graph_last
  refine ⟨hb, hf.unused, ?_, ?_⟩
  · intro k hk
    rw [hrest k (ne_of_mem_of_not_mem hf.spans.last_mem hk).symm, hf.frame k hk]
  · exact hf.spans.congr_exit (fun k _ hk => hrest k hk)
      ⟨_, hlast l hl, hledge, hlnext, hlother⟩

end Fragment.BuiltOn

/-- **A line feed before an expression.** -/
theorem Regex.exists_buildAtLineStart (r : Regex) {a : Arena} (ha : a.Consistent) :
    ∃ f b U, r.buildAtLineStart a = .ok (f, b) ∧
      f.BuiltOn a b U (oneSymbol {Symbol.lineFeed} * r.language) ∧
      f.Shape b.graph U Anchor.none ∧ f.Marked b.graph U ⟨true, false⟩ := by
  obtain ⟨i, a₁, h₁, hc₁, hi, hg₁⟩ := Arena.exists_alloc ha
  have hn₁ : a₁.graph i = some (Node.fresh i) := by rw [hg₁, Function.update_self]
  obtain ⟨a₂, h₂, hc₂, hg₂⟩ := Arena.exists_setEdge hc₁ hn₁ (.byte Symbol.lineFeed.toByte)
  obtain ⟨f, a₃, S, h₃, hf, hs⟩ := r.exists_build_shape hc₂
  have hiS : i ∉ S := by
    intro h
    have hnone := hf.unused i h
    rw [hg₂, Function.update_self] at hnone
    cases hnone
  have hn₃ : a₃.graph i =
      some { Node.fresh i with edge := .byte Symbol.lineFeed.toByte } := by
    rw [hf.frame i hiS, hg₂, Function.update_self]
  obtain ⟨a₄, h₄, hc₄, hg₄⟩ := Arena.exists_setNext hf.consistent hn₃ (some f.first)
  have hprecedes : f.Precedes i a₃.graph a₄.graph := by
    refine ⟨by rw [hg₄, Function.update_self], fun k hk => ?_⟩
    rw [hg₄, Function.update_of_ne hk]
  have hrest : ∀ k, k ≠ i → a₂.graph k = a.graph k := by
    intro k hk
    rw [hg₂, Function.update_of_ne hk, hg₁, Function.update_of_ne hk]
  refine ⟨⟨i, f.last⟩, a₄, {i} ∪ S, ?_, ⟨hc₄, ?_, ?_, ?_⟩, hs.precede hf.spans hiS hprecedes,
    .precede hprecedes⟩
  · simp only [Regex.buildAtLineStart, Store.alloc, Store.setEdge, Store.setNext, h₁, h₂, h₃, h₄,
      bind, Except.bind]
    rfl
  · intro k hk
    rcases hk with hk | hk
    · rw [hk, hi]
    · rw [← hrest k (ne_of_mem_of_not_mem hk hiS), hf.unused k hk]
  · intro k hk
    have hki : k ≠ i := fun h => hk (.inl h)
    rw [hprecedes.rest k hki, hf.frame k fun h => hk (.inr h), hrest k hki]
  · rw [← Edge.symbols_byte]
    exact hf.spans.consumeBefore (by simp) (Edge.inAlphabet_byte _) hiS
      ⟨_, hprecedes.entry, rfl, rfl, rfl⟩
      fun k hk => hprecedes.rest k (ne_of_mem_of_not_mem hk hiS)

/-- The beginning of a rule. -/
theorem Rule.exists_start (r : Rule) {a : Arena} (ha : a.Consistent) :
    ∃ f b U, (if r.bol then r.body.buildAtLineStart a else r.body.build a) = .ok (f, b) ∧
      f.BuiltOn a b U (lineStartLanguage r.bol * r.body.language) ∧
      f.Shape b.graph U Anchor.none ∧ f.Marked b.graph U ⟨r.bol, false⟩ := by
  cases r.bol with
  | true => exact r.body.exists_buildAtLineStart ha
  | false =>
      obtain ⟨f, b, U, h, hf, hs⟩ := r.body.exists_build_shape ha
      refine ⟨f, b, U, h, ?_, hs, .none f b.graph U⟩
      rwa [lineStartLanguage, if_neg Bool.false_ne_true, one_mul]

/-- The end of a rule. -/
theorem Rule.exists_end (r : Rule) {f : Fragment} {a a' : Arena} {S : Set Nat}
    {L : Language UInt8} (hf : f.BuiltOn a a' S L) (hs : f.Shape a'.graph S Anchor.none)
    (hm : f.Marked a'.graph S ⟨r.bol, false⟩) :
    ∃ g b U, (if r.eol then f.toLineEnd a' else pure (f, a')) = .ok (g, b) ∧
      g.BuiltOn a b U (L * lineEndLanguage r.eol) ∧ g.Shape b.graph U Anchor.none ∧
      g.Marked b.graph U r.anchor := by
  unfold Rule.anchor
  cases r.eol with
  | true =>
      obtain ⟨l, hl, _⟩ := hf.graph_last
      obtain ⟨g, b, h, hb, hends⟩ := Fragment.exists_endsLine hf.consistent hl
      exact ⟨g, b, _, h, hf.endLine hends hb, hs.endLine hf.spans hends,
        hm.endLine hf.spans hends⟩
  | false =>
      refine ⟨f, a', S, rfl, ?_, hs, hm⟩
      rwa [lineEndLanguage, if_neg Bool.false_ne_true, mul_one]

/-- **Building a rule** succeeds and gives a fragment with the language of the
rule, whose exit carries its anchor. -/
theorem Rule.exists_build_shape (r : Rule) {a : Arena} (ha : a.Consistent) :
    ∃ f b U, r.build a = .ok (f, b) ∧ f.BuiltOn a b U r.language ∧
      f.Shape b.graph U r.anchor ∧ f.Marked b.graph U r.anchor := by
  obtain ⟨f, a₁, S, h₁, hf, hs, hm⟩ := r.exists_start ha
  obtain ⟨g, a₂, T, h₂, hg, hs', hm'⟩ := r.exists_end hf hs hm
  obtain ⟨l, hl, hledge, hlnext, hlother⟩ := hg.graph_last
  obtain ⟨b, h₃, hb, hgb⟩ := Arena.exists_setAnchor hg.consistent hl r.anchor
  have hlast : ∀ l, a₂.graph g.last = some l →
      b.graph g.last = some { l with anchor := r.anchor } := by
    intro l' hl'
    rw [hl] at hl'
    cases hl'
    rw [hgb, Function.update_self]
  have hrest : ∀ k, k ≠ g.last → b.graph k = a₂.graph k :=
    fun k hk => by rw [hgb, Function.update_of_ne hk]
  refine ⟨g, b, T, ?_, hg.setAnchor hb hlast hrest, ?_, ?_⟩
  · cases hbol : r.bol <;> cases heol : r.eol <;>
      simp only [hbol, heol, Bool.false_eq_true, if_false, if_true] at h₁ h₂ <;>
      simp only [Rule.build, Store.setAnchor, hbol, heol, Bool.false_eq_true, if_false, if_true,
        h₁, h₂, h₃, bind, Except.bind] <;>
      rfl
  · exact hs'.setAnchor hg.spans (fun k _ hk => hrest k hk) hlast
  · exact hm'.congr hg.spans (fun k _ hk => hrest k hk) ⟨_, hlast l hl, hledge, hlnext, hlother⟩

/-- Building a rule succeeds and gives a fragment with the language of the
rule. -/
theorem Rule.exists_build (r : Rule) {a : Arena} (ha : a.Consistent) :
    ∃ f b U, r.build a = .ok (f, b) ∧ f.BuiltOn a b U r.language := by
  obtain ⟨f, b, U, h, hf, _⟩ := r.exists_build_shape ha
  exact ⟨f, b, U, h, hf⟩

/-! ## §2. The chain. -/

/-- **A chain of rules has been built** behind a link: slots that were empty
hold its nodes, and only the link has changed besides. -/
structure Chained (link : Nat) (a b : Arena) (U : Set Nat) (rules : List Rule)
    (fragments : List Fragment) : Prop where
  /-- The arena is in order. -/
  consistent : b.Consistent
  /-- The slots were empty. -/
  unused : ∀ i ∈ U, a.graph i = none
  /-- The other slots are as they were, except for the link. -/
  frame : ∀ i, i ∉ U → i ≠ link → b.graph i = a.graph i
  /-- The link and the slots are a chain. -/
  chain : b.graph.ChainOf link (insert link U) rules fragments

/-- **A rule has been hung off a link** that was a fresh node: slots that were
empty hold its nodes, and the link leads to its entrance. -/
structure Hung (link : Nat) (a b : Arena) (f : Fragment) (S : Set Nat) (r : Rule) : Prop where
  /-- The arena is in order. -/
  consistent : b.Consistent
  /-- The slots were empty. -/
  unused : ∀ i ∈ S, a.graph i = none
  /-- The link is none of them. -/
  link_not_mem : link ∉ S
  /-- The other slots are as they were, except for the link. -/
  frame : ∀ i, i ∉ S → i ≠ link → b.graph i = a.graph i
  /-- The link leads to the entrance of the rule. -/
  graph_link : b.graph link = some { Node.fresh link with next := some f.first }
  /-- The nodes are a fragment with the language of the rule. -/
  spans : f.Spans b.graph S r.language
  /-- Its exit carries the anchor of the rule. -/
  shape : f.Shape b.graph S r.anchor
  /-- So do its ends. -/
  marked : f.Marked b.graph S r.anchor

/-- A rule hangs off a link. -/
theorem Rule.exists_build_setNext (r : Rule) {link : Nat} {a : Arena} (ha : a.Consistent)
    (hlink : a.graph link = some (Node.fresh link)) :
    ∃ f a₁ b S, r.build a = .ok (f, a₁) ∧ a₁.setNext link (some f.first) = .ok b ∧
      Hung link a b f S r := by
  obtain ⟨f, a₁, S, h₁, hf, hs, hm⟩ := r.exists_build_shape ha
  have hlinkS : link ∉ S := by
    intro h
    have hnone := hf.unused link h
    rw [hlink] at hnone
    cases hnone
  have hlink₁ : a₁.graph link = some (Node.fresh link) := by rw [hf.frame link hlinkS, hlink]
  obtain ⟨b, h₂, hcb, hgb⟩ := Arena.exists_setNext hf.consistent hlink₁ (some f.first)
  have hsame : ∀ i ∈ S, b.graph i = a₁.graph i := by
    intro i hi
    rw [hgb, Function.update_of_ne (ne_of_mem_of_not_mem hi hlinkS)]
  refine ⟨f, a₁, b, S, h₁, h₂, hcb, hf.unused, hlinkS, ?_, by rw [hgb, Function.update_self],
    hf.spans.congr hsame, hs.congr hf.spans hsame, hm.congr hf.spans (fun i hi _ => hsame i hi) ?_⟩
  · intro i hi hne
    rw [hgb, Function.update_of_ne hne, hf.frame i hi]
  · exact hf.spans.exit.congr (hsame _ hf.spans.last_mem)

/-- A fresh link goes behind one that a rule hangs off. -/
structure Links (link further : Nat) (f : Fragment) (G G' : Graph Nat) : Prop where
  /-- The slot of the new link was empty. -/
  unused : G further = none
  /-- The old link leads to the rule and to the new one. -/
  entry : G' link = some { Node.fresh link with next := some f.first, other := some further }
  /-- The new link is a fresh node. -/
  fresh : G' further = some (Node.fresh further)
  /-- The other slots are as they were. -/
  rest : ∀ i, i ≠ link → i ≠ further → G' i = G i

/-- The slots of a chain held nothing before. -/
theorem Chained.not_mem_of_some {link i : Nat} {a b : Arena} {U : Set Nat} {rules : List Rule}
    {fs : List Fragment} {n : Node Nat} (hb : Chained link a b U rules fs)
    (hn : a.graph i = some n) : i ∉ U := by
  intro hi
  rw [hb.unused i hi] at hn
  cases hn

namespace Hung

variable {link further i : Nat} {a a' a'' b : Arena} {f : Fragment} {fs : List Fragment}
  {S U : Set Nat} {r : Rule} {rules : List Rule}

/-- A link without another one behind it ends a chain. -/
theorem chained_last (h : Hung link a b f S r) : Chained link a b S [r] [f] where
  consistent := h.consistent
  unused := h.unused
  frame := h.frame
  chain := .single h.graph_link h.link_not_mem h.spans h.shape h.marked

/-- A fresh link can go behind the one that a rule hangs off. -/
theorem exists_further (h : Hung link a a' f S r) :
    ∃ further a₁ a'', a'.alloc = (further, a₁) ∧ a₁.setOther link (some further) = .ok a'' ∧
      a''.Consistent ∧ Links link further f a'.graph a''.graph := by
  obtain ⟨further, a₁, halloc, hc₁, hfurther, hg₁⟩ := Arena.exists_alloc h.consistent
  have hne : link ≠ further := Fragment.ne_of_unused h.graph_link hfurther
  have hlink₁ : a₁.graph link = some { Node.fresh link with next := some f.first } := by
    rw [hg₁, Function.update_of_ne hne, h.graph_link]
  obtain ⟨a'', hother, hc, hg⟩ := Arena.exists_setOther hc₁ hlink₁ (some further)
  refine ⟨further, a₁, a'', halloc, hother, hc, hfurther, ?_, ?_, ?_⟩
  · rw [hg, Function.update_self]
  · rw [hg, Function.update_of_ne hne.symm, hg₁, Function.update_self]
  · intro i hi hi'
    rw [hg, Function.update_of_ne hi, hg₁, Function.update_of_ne hi']

/-- What is empty now was empty before. -/
theorem none_of_none (h : Hung link a a' f S r) (hi : a'.graph i = none) : a.graph i = none := by
  have hiS : i ∉ S := h.spans.not_mem_of_none hi
  have hil : i ≠ link := (Fragment.ne_of_unused h.graph_link hi).symm
  rw [← h.frame i hiS hil, hi]

/-- The chain behind leaves the link alone. -/
theorem link_kept (h : Hung link a a' f S r) (hl : Links link further f a'.graph a''.graph)
    (hb : Chained further a'' b U rules fs) :
    b.graph link = some { Node.fresh link with next := some f.first, other := some further } ∧
      link ∉ insert further U := by
  have hne : link ≠ further := Fragment.ne_of_unused h.graph_link hl.unused
  have hlinkU : link ∉ U := hb.not_mem_of_some hl.entry
  exact ⟨by rw [hb.frame link hlinkU hne, hl.entry], by simp [hne, hlinkU]⟩

/-- The chain behind leaves the rule alone. -/
theorem kept (h : Hung link a a' f S r) (hl : Links link further f a'.graph a''.graph)
    (hb : Chained further a'' b U rules fs) (hi : i ∈ S) :
    b.graph i = a'.graph i ∧ i ∉ insert further U := by
  have hne : i ≠ further := ne_of_mem_of_not_mem hi (h.spans.not_mem_of_none hl.unused)
  have hi'' : a''.graph i = a'.graph i := hl.rest i (ne_of_mem_of_not_mem hi h.link_not_mem) hne
  obtain ⟨n, hn⟩ := h.spans.live hi
  have hiU : i ∉ U := hb.not_mem_of_some (hi''.trans hn)
  exact ⟨(hb.frame i hiU hne).trans hi'', by simp [hne, hiU]⟩

/-- The slots of the chain behind were empty when it was begun. -/
theorem none_of_mem (h : Hung link a a' f S r) (hl : Links link further f a'.graph a''.graph)
    (hb : Chained further a'' b U rules fs) (hi : i ∈ insert further U) :
    a'.graph i = none := by
  by_cases hne : i = further
  · rw [hne, hl.unused]
  · have hiU : i ∈ U := hi.resolve_left hne
    have hil : i ≠ link := ne_of_mem_of_not_mem hi (h.link_kept hl hb).2
    rw [← hl.rest i hil hne, hb.unused i hiU]

/-- A link with a second reference joins its rule to the chain behind it. -/
theorem chained_more (h : Hung link a a' f S r) (hl : Links link further f a'.graph a''.graph)
    (hb : Chained further a'' b U rules fs) :
    Chained link a b (S ∪ insert further U) (r :: rules) (f :: fs) := by
  obtain ⟨hlink, hlinkU⟩ := h.link_kept hl hb
  have hsame : ∀ i ∈ S, b.graph i = a'.graph i := fun i hi => (h.kept hl hb hi).1
  refine ⟨hb.consistent, ?_, ?_, ?_⟩
  · intro i hi
    rcases hi with hi | hi
    · exact h.unused i hi
    · -- empty when the chain was begun, hence empty before the rule was hung
      exact h.none_of_none (h.none_of_mem hl hb hi)
  · intro i hi hil
    rw [Set.mem_union, Set.mem_insert_iff, not_or, not_or] at hi
    obtain ⟨hiS, hne, hiU⟩ := hi
    rw [hb.frame i hiU hne, hl.rest i hil hne, h.frame i hiS hil]
  · have hexit := h.spans.exit.congr (hsame _ h.spans.last_mem)
    exact hb.chain.cons hlink h.link_not_mem hlinkU (fun i hi => (h.kept hl hb hi).2)
      (h.spans.congr hsame) (h.shape.congr h.spans hsame)
      (h.marked.congr h.spans (fun i hi _ => hsame i hi) hexit)

end Hung

/-- **Building a chain** succeeds. -/
theorem exists_buildChain (r : Rule) (rules : List Rule) {link : Nat} {a : Arena}
    (ha : a.Consistent) (hlink : a.graph link = some (Node.fresh link)) :
    ∃ fs b U, buildChain link a (r :: rules) = .ok (fs, b) ∧
      Chained link a b U (r :: rules) fs := by
  -- the induction is on the rules behind the first one, as in the construction
  induction rules generalizing r link a with
  | nil =>
      obtain ⟨f, a₁, b, S, h₁, h₂, hung⟩ := r.exists_build_setNext ha hlink
      refine ⟨[f], b, S, ?_, hung.chained_last⟩
      simp only [buildChain, Store.setNext, h₁, h₂, bind, Except.bind]
      rfl
  | cons r' rules ih =>
      obtain ⟨f, a₁, a₂, S, h₁, h₂, hung⟩ := r.exists_build_setNext ha hlink
      obtain ⟨further, a₃, a₄, h₃, h₄, hc₄, hlinks⟩ := hung.exists_further
      -- the further rules hang off the new link
      obtain ⟨fs, b, U, h₅, hb⟩ := ih r' hc₄ hlinks.fresh
      refine ⟨f :: fs, b, S ∪ insert further U, ?_, hung.chained_more hlinks hb⟩
      simp only [buildChain, Store.setNext, Store.alloc, Store.setOther, h₁, h₂, h₃, h₄, h₅, bind,
        Except.bind]
      rfl

/-! ## §3. The automaton. -/

/-- **Building the rules of a pattern** succeeds.  The words that lead from the
start to a terminal node are those of the rules, and every rule has an exit. -/
theorem Assembly.exists_ofRules (r : Rule) (rules : List Rule) :
    ∃ asm n, Assembly.ofRules? (r :: rules) = .ok asm ∧
      asm.arena.Consistent ∧ asm.arena.Grounded ∧ asm.arena.graph asm.start = some n ∧
      accepted asm.arena.graph asm.start = Rule.languageOf (r :: rules) ∧
      asm.arena.graph.OfRules asm.start (r :: rules) (asm.fragments.map Fragment.last) := by
  obtain ⟨i, a, h, hc, _, hg⟩ := Arena.exists_alloc Arena.consistent_empty
  obtain ⟨fs, b, U, hchain, hb⟩ := exists_buildChain r rules hc
    (show a.graph i = some (Node.fresh i) by rw [hg, Function.update_self])
  obtain ⟨n, hn⟩ := hb.chain.live i (.inl rfl)
  -- the arena was empty, so every node is one of those built
  have hbuilt : ∀ k m, b.graph k = some m → k ∈ insert i U := by
    intro k m hm
    by_contra hk
    rw [hb.frame k (fun h => hk (.inr h)) (fun h => hk (.inl h)), hg,
      Function.update_of_ne (fun h => hk (.inl h))] at hm
    cases hm
  refine ⟨⟨b, i, fs⟩, n, ?_, hb.consistent, ?_, hn, hb.chain.language, hb.chain.ofRules hbuilt⟩
  · simp only [Assembly.ofRules?, buildRules, Store.alloc, h, hchain, bind, Except.bind]
    rfl
  · intro k m hm j hj
    exact hb.chain.live j (hb.chain.closed k (hbuilt k m hm) m hm j hj)

/-- **The automaton of a list of rules** exists, accepts the words of the
rules, and has an exit for each of them. -/
theorem Nfa.exists_ofRules_exits (r : Rule) (rules : List Rule) :
    ∃ nfa exits, Nfa.ofRules? (r :: rules) = .ok nfa ∧
      (∀ w, nfa.accepts w = true ↔ w ∈ Rule.languageOf (r :: rules)) ∧
      (∀ i, (nfa.node i).index = i) ∧ nfa.graph.OfRules nfa.start (r :: rules) exits := by
  obtain ⟨asm, n, h, hc, hg, hn, hL, hexits⟩ := Assembly.exists_ofRules r rules
  obtain ⟨nfa, slot, hfinish, hslot, honto⟩ := Arena.exists_finish hc hg hn
  obtain ⟨exits, hnfa⟩ := hslot.exists_ofRules honto hexits
  refine ⟨nfa, exits, ?_, ?_, hslot.numbered, hnfa⟩
  · simp only [Nfa.ofRules?, Assembly.finish, h, hfinish, bind, Except.bind]
  · intro w
    rw [hslot.accepts_iff, hL]

/-- The automaton of a list of rules exists, accepts the words of the rules,
and leads onward to a terminal node from every node. -/
theorem Nfa.exists_ofRules (r : Rule) (rules : List Rule) :
    ∃ nfa, Nfa.ofRules? (r :: rules) = .ok nfa ∧
      (∀ w, nfa.accepts w = true ↔ w ∈ Rule.languageOf (r :: rules)) ∧
      ∀ i, nfa.graph.Halts i := by
  obtain ⟨nfa, _, h, haccepts, _, hexits⟩ := Nfa.exists_ofRules_exits r rules
  exact ⟨nfa, h, haccepts, fun i => hexits.halts i _ rfl⟩

end LineScan
