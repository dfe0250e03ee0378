/-
  LineScan.Proofs.Nfa.PatternShape
  ────────────────────────────────
  **WHAT THE AUTOMATON OF A PATTERN LOOKS LIKE.**

  The terminal nodes are the exits of the rules (`Graph.OfRules`), one for
  each rule, and the list of exits is in the order of the rules.  What an exit
  looks like, and what every other node looks like, is known from the
  construction; here it is said of the automaton as a whole:

      Nfa.Shape      numbers, references, edges, what leads where
      Nfa.Anchored   which anchor each rule puts on its node, and what a
                     trail to that node begins and ends with

  The rules are those of the grammar, which finds no others in the same
  tokens.
-/
import LineScan.Proofs.Nfa.Acceptance
import LineScan.Proofs.Nfa.OfPattern

namespace LineScan

/-! ## §1. Terminal nodes. -/

/-- Anchors put together are tied to what one of them is tied to. -/
theorem Anchor.foldl_union {side : Anchor → Bool}
    (hside : ∀ a b, side (a.union b) = (side a || side b)) (a : Anchor) (l : List Anchor) :
    side (l.foldl Anchor.union a) = true ↔ side a = true ∨ ∃ b ∈ l, side b = true := by
  induction l generalizing a with
  | nil => simp
  | cons b l ih =>
      rw [List.foldl_cons, ih, hside, Bool.or_eq_true, List.exists_mem_cons_iff, or_assoc]

namespace Nfa

variable {nfa : Nfa} {rules : List Rule} {exits : List (Fin nfa.size)} {i t : Fin nfa.size}
  {w : Word}

/-- The terminal nodes, by number. -/
def terminals (nfa : Nfa) : List (Fin nfa.size) :=
  (List.finRange nfa.size).filter fun i => (nfa.node i).isTerminal

theorem mem_terminals : i ∈ nfa.terminals ↔ (nfa.node i).isTerminal = true := by
  rw [terminals, List.mem_filter]
  exact and_iff_right (List.mem_finRange i)

theorem nodup_terminals (nfa : Nfa) : nfa.terminals.Nodup :=
  (List.nodup_finRange nfa.size).filter _

/-- The terminal nodes are the exits, though maybe in another order. -/
theorem terminals_perm (hG : nfa.graph.OfRules nfa.start rules exits) :
    nfa.terminals.Perm exits := by
  refine (List.perm_ext_iff_of_nodup nfa.nodup_terminals hG.nodup).2 fun i => ?_
  rw [mem_terminals]
  exact hG.isTerminal_iff rfl

theorem length_terminals (hG : nfa.graph.OfRules nfa.start rules exits) :
    nfa.terminals.length = rules.length := by
  rw [(terminals_perm hG).length_eq, hG.each.length_eq]

theorem toList_nodes (nfa : Nfa) : nfa.nodes.toList = (List.finRange nfa.size).map nfa.node := by
  apply List.ext_getElem
  · simp
  · intro k _ _
    simp [node]

/-- The anchor of an automaton is made of those of its terminal nodes. -/
theorem anchor_eq_foldl (nfa : Nfa) :
    nfa.anchor =
      (nfa.terminals.map fun t => (nfa.node t).anchor).foldl Anchor.union Anchor.none := by
  rw [anchor, toList_nodes, List.filter_map, List.foldl_map, List.foldl_map]
  rfl

/-- The anchor of an automaton is tied to what that of a terminal node is tied
to. -/
theorem anchor_side_iff {side : Anchor → Bool}
    (hside : ∀ a b, side (a.union b) = (side a || side b)) (hnone : side Anchor.none = false) :
    side nfa.anchor = true ↔
      ∃ t, (nfa.node t).isTerminal = true ∧ side (nfa.node t).anchor = true := by
  rw [anchor_eq_foldl, Anchor.foldl_union hside, hnone]
  simp only [Bool.false_eq_true, false_or, List.mem_map, exists_exists_and_eq_and, mem_terminals]

theorem walk_of_trail (h : nfa.Trail i w t) : Walk nfa.graph i w t := by
  induction h with
  | stay i => exact .nil i
  | silent hedge hrefs _ ih =>
      exact .epsilon rfl (Node.mem_epsilonTargets.2 ⟨hedge, Node.mem_refs.2 hrefs⟩) ih
  | consume hedge hnext _ ih => exact .byte rfl (Node.byteTarget?_eq_some.2 ⟨hedge, hnext⟩) ih

/-! ## §2. The shape. -/

/-- **What an automaton with a number of rules looks like.** -/
structure Shape (nfa : Nfa) (rules : Nat) : Prop where
  /-- Every node knows its number. -/
  index : ∀ i, (nfa.node i).index = i
  /-- References are numbers of nodes. -/
  range : ∀ i, ∀ j ∈ (nfa.node i).refs, j.val < nfa.size
  /-- There is one terminal node for each rule. -/
  terminals : nfa.terminals.length = rules
  /-- A terminal node leads nowhere and consumes nothing. -/
  bare : ∀ t, (nfa.node t).isTerminal = true →
    (nfa.node t).refs = [] ∧ (nfa.node t).edge = .epsilon
  /-- A node that consumes something has the first reference and no second. -/
  single : ∀ i, (nfa.node i).edge ≠ .epsilon →
    (nfa.node i).next ≠ none ∧ (nfa.node i).other = none
  /-- Only terminal nodes carry anchors. -/
  unanchored : ∀ i, (nfa.node i).anchor ≠ Anchor.none → (nfa.node i).isTerminal = true
  /-- References lead from the start to every node. -/
  led : ∀ i, nfa.graph.Leads nfa.start i
  /-- References lead from every node to a terminal one. -/
  leads : ∀ i, ∃ t, (nfa.node t).isTerminal = true ∧ nfa.graph.Leads i t

/-- An exit, and what it is the exit of. -/
theorem exists_exit (hG : nfa.graph.OfRules nfa.start rules exits)
    (ht : (nfa.node t).isTerminal = true) :
    ∃ r : Rule, r.ExitAt nfa.graph nfa.start t ∧ (nfa.node t).Exit r.anchor := by
  obtain ⟨r, hr⟩ := hG.exists_rule ((hG.isTerminal_iff rfl).1 ht)
  obtain ⟨n, hn, hexit⟩ := hr.exit
  cases hn
  exact ⟨r, hr, hexit⟩

theorem inner_of_not_isTerminal (hG : nfa.graph.OfRules nfa.start rules exits)
    (hi : ¬ (nfa.node i).isTerminal = true) : (nfa.node i).Inner :=
  hG.inner i _ rfl fun hmem => hi ((hG.isTerminal_iff rfl).2 hmem)

/-- **A graph of rules has the shape.** -/
theorem shape_of_ofRules (hindex : ∀ i, (nfa.node i).index = i)
    (hG : nfa.graph.OfRules nfa.start rules exits) : nfa.Shape rules.length where
  index := hindex
  range _ j _ := j.isLt
  terminals := length_terminals hG
  bare t ht := by
    obtain ⟨_, _, hexit⟩ := exists_exit hG ht
    refine ⟨?_, hexit.edge⟩
    rw [Node.refs, hexit.next, hexit.other]
    rfl
  single i hi := by
    by_cases ht : (nfa.node i).isTerminal = true
    · -- an exit consumes nothing, so this node is not one
      obtain ⟨_, _, hexit⟩ := exists_exit hG ht
      exact absurd hexit.edge hi
    · have hinner := inner_of_not_isTerminal hG ht
      exact ⟨hinner.next, hinner.other hi⟩
  unanchored i hi := by
    by_contra ht
    exact hi (inner_of_not_isTerminal hG ht).anchor
  led i := hG.led i _ rfl
  leads i := by
    obtain ⟨t, n, hway, hn, hterminal⟩ := hG.halts i _ rfl
    cases hn
    exact ⟨t, hterminal, hway.leads⟩

/-! ## §3. The anchors. -/

/-- **How the anchors of an automaton agree with its rules**, each given by its
anchor and its language, and `exits` listing one node for each. -/
structure Anchored (nfa : Nfa) (rules : List (Anchor × Language UInt8))
    (exits : List (Fin nfa.size)) : Prop where
  /-- The nodes are different ones. -/
  nodup : exits.Nodup
  /-- They are the terminal ones. -/
  terminal : ∀ t, (nfa.node t).isTerminal = true ↔ t ∈ exits
  /-- Each is reached on the words of its rule, and carries its anchor. -/
  each : List.Forall₂ (fun rule t =>
    (nfa.node t).anchor = rule.1 ∧ ∀ w, Path nfa.graph nfa.start w t ↔ w ∈ rule.2) rules exits
  /-- The automaton is anchored to the beginning of a line when some rule is. -/
  bol : nfa.anchor.bol = true ↔ ∃ t ∈ exits, (nfa.node t).anchor.bol = true
  /-- It is anchored to the end of a line when some rule is. -/
  eol : nfa.anchor.eol = true ↔ ∃ t ∈ exits, (nfa.node t).anchor.eol = true
  /-- Whatever leads to a terminal node fits its anchor. -/
  fits : ∀ t w, (nfa.node t).isTerminal = true → nfa.Trail nfa.start w t →
    (nfa.node t).anchor.Fits w

/-- **A graph of rules has their anchors.** -/
theorem anchored_of_ofRules (hG : nfa.graph.OfRules nfa.start rules exits) :
    nfa.Anchored (rules.map Rule.meaning) exits where
  nodup := hG.nodup
  terminal t := hG.isTerminal_iff rfl
  each := by
    rw [List.forall₂_map_left_iff]
    refine hG.each.imp fun r t hr => ?_
    obtain ⟨n, hn, hexit⟩ := hr.exit
    cases hn
    refine ⟨hexit.anchor, fun w => ?_⟩
    rw [← mem_runs, hr.language]
    rfl
  bol := by
    rw [anchor_side_iff (fun _ _ => rfl) rfl]
    exact exists_congr fun t => and_congr_left' (hG.isTerminal_iff rfl)
  eol := by
    rw [anchor_side_iff (fun _ _ => rfl) rfl]
    exact exists_congr fun t => and_congr_left' (hG.isTerminal_iff rfl)
  fits t w ht htrail := by
    obtain ⟨r, hr, hexit⟩ := exists_exit hG ht
    rw [hexit.anchor]
    exact hr.fits w (walk_of_trail htrail)

/-! ## §4. Patterns. -/

/-- The automaton of a pattern is a graph of the rules that the grammar finds in
it, and of no others. -/
theorem exists_ofRules_of_ofPattern {pattern : String} (h : Nfa.ofPattern? pattern = .ok nfa) :
    ∃ (ts : List Token) (rules : List Rule) (exits : List (Fin nfa.size)),
      itemsOf pattern = ts.map Item.token ∧ PatternText ts (rules.map Rule.meaning) ∧
        (∀ others, PatternText ts others → others = rules.map Rule.meaning) ∧
        (∀ i, (nfa.node i).index = i) ∧ nfa.graph.OfRules nfa.start rules exits := by
  obtain ⟨rules, hread, hrules⟩ := exists_rules_of_ofPattern h
  obtain ⟨hne, ts, hts, htext⟩ := readRules_patternText hread
  cases rules with
  | nil => exact absurd rfl hne
  | cons r rules =>
      obtain ⟨nfa', exits, hnfa, _, hindex, hG⟩ := Nfa.exists_ofRules_exits r rules
      -- building is a function, so this is the automaton at hand
      rw [hrules] at hnfa
      cases hnfa
      exact ⟨ts, r :: rules, exits, hts, htext,
        fun _ h' => htext.unique h' (proper_of_itemsOf hts), hindex, hG⟩

/-- **The automaton of every pattern has the shape**, with one terminal node for
each rule of the pattern. -/
theorem shape_of_ofPattern {pattern : String} (h : Nfa.ofPattern? pattern = .ok nfa) :
    ∃ (ts : List Token) (rules : List (Anchor × Language UInt8)),
      itemsOf pattern = ts.map Item.token ∧ PatternText ts rules ∧
        (∀ others, PatternText ts others → others = rules) ∧ nfa.Shape rules.length := by
  obtain ⟨ts, rules, exits, hts, htext, hunique, hindex, hG⟩ := exists_ofRules_of_ofPattern h
  refine ⟨ts, rules.map Rule.meaning, hts, htext, hunique, ?_⟩
  rw [List.length_map]
  exact shape_of_ofRules hindex hG

theorem shape_of_ofPattern_rules :
    ∃ nfa, Nfa.ofPattern? "^(a|(b?c)*)+$d*$[^e]" = .ok nfa ∧
      ∃ (ts : List Token) (rules : List (Anchor × Language UInt8)),
        itemsOf "^(a|(b?c)*)+$d*$[^e]" = ts.map Item.token ∧ PatternText ts rules ∧
          (∀ others, PatternText ts others → others = rules) ∧ nfa.Shape rules.length := by
  have hok : (Nfa.ofPattern? "^(a|(b?c)*)+$d*$[^e]").isOk = true := by decide +kernel
  cases h : Nfa.ofPattern? "^(a|(b?c)*)+$d*$[^e]" with
  | error e =>
      rw [h] at hok
      cases hok
  | ok nfa => exact ⟨nfa, rfl, shape_of_ofPattern h⟩

/-- **The anchors of the automaton of every pattern agree with its rules.**  The
pattern is made of the texts of its rules; the terminal node of a rule is
anchored to the beginning of a line when its text begins with `^`, and to the
end of one when its text ends with `$`. -/
theorem anchored_of_ofPattern {pattern : String} (h : Nfa.ofPattern? pattern = .ok nfa) :
    ∃ (texts : List (List Token)) (rules : List (Anchor × Language UInt8))
      (exits : List (Fin nfa.size)),
      itemsOf pattern = texts.flatten.map Item.token ∧ PatternText texts.flatten rules ∧
        (∀ others, PatternText texts.flatten others → others = rules) ∧
        List.Forall₂ SpellsRule texts rules ∧ nfa.Anchored rules exits := by
  obtain ⟨ts, rules, exits, hts, htext, hunique, _, hG⟩ := exists_ofRules_of_ofPattern h
  obtain ⟨texts, rfl, hspells⟩ := htext.exists_texts
  exact ⟨texts, rules.map Rule.meaning, exits, hts, htext, hunique, hspells,
    anchored_of_ofRules hG⟩

theorem anchored_of_ofPattern_rules :
    ∃ nfa, Nfa.ofPattern? "^a*|b$(c|d)?$^e" = .ok nfa ∧
      ∃ (texts : List (List Token)) (rules : List (Anchor × Language UInt8))
        (exits : List (Fin nfa.size)),
        itemsOf "^a*|b$(c|d)?$^e" = texts.flatten.map Item.token ∧
          PatternText texts.flatten rules ∧
          (∀ others, PatternText texts.flatten others → others = rules) ∧
          List.Forall₂ SpellsRule texts rules ∧ nfa.Anchored rules exits := by
  have hok : (Nfa.ofPattern? "^a*|b$(c|d)?$^e").isOk = true := by decide +kernel
  cases h : Nfa.ofPattern? "^a*|b$(c|d)?$^e" with
  | error e =>
      rw [h] at hok
      cases hok
  | ok nfa => exact ⟨nfa, rfl, anchored_of_ofPattern h⟩

end Nfa

end LineScan
