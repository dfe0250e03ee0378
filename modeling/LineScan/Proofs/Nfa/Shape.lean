/-
  LineScan.Proofs.Nfa.Shape
  ─────────────────────────
  **WHAT THE NODES OF A FRAGMENT LOOK LIKE.**

  Inside a fragment a node leads on: it has a first reference, a second one
  only on an epsilon edge, and no anchor.  The exit is bare, except for the
  anchor that a rule puts there.  References lead from the entrance to every
  node (`Fragment.Shape`).  Each construction keeps that, because it turns old
  exits into inner nodes and has a fresh node for an exit.

  A rule that begins a line has its line feed on the entrance, and one that
  ends a line has the line end on every way into the exit (`Fragment.Marked`).
  Both are facts about single nodes, so nothing that is built later disturbs
  them; what they say of walks from the entrance to the exit is `Marked.fits`.
-/
import LineScan.Proofs.Nfa.Construction
import LineScan.Proofs.Nfa.Fragment
import LineScan.Proofs.Nfa.Walk

namespace LineScan

/-! ## §1. Inner nodes and exits. -/

namespace Node

variable {Ref : Type}

/-- A node that leads on. -/
structure Inner (n : Node Ref) : Prop where
  /-- It has a first reference. -/
  next : n.next ≠ none
  /-- It has a second one on an epsilon edge only. -/
  other : n.edge ≠ .epsilon → n.other = none
  /-- It carries no anchor. -/
  anchor : n.anchor = Anchor.none

/-- A node that leads nowhere, with an anchor. -/
structure Exit (n : Node Ref) (anchor : Anchor) : Prop where
  /-- It consumes nothing. -/
  edge : n.edge = .epsilon
  /-- It has no first reference. -/
  next : n.next = none
  /-- It has no second one. -/
  other : n.other = none
  /-- It carries the anchor. -/
  anchor : n.anchor = anchor

theorem exit_fresh (i : Ref) : (fresh i).Exit Anchor.none := ⟨rfl, rfl, rfl, rfl⟩

/-- An epsilon node without an anchor leads on as soon as it has a first
reference. -/
theorem inner_of_epsilon {n : Node Ref} (hedge : n.edge = .epsilon) (hnext : n.next ≠ none)
    (hanchor : n.anchor = Anchor.none) : n.Inner :=
  ⟨hnext, fun h => absurd hedge h, hanchor⟩

end Node

namespace Fragment

variable {f g h : Fragment} {G G' : Graph Nat} {S T : Set Nat} {L M : Language UInt8}
  {anchor marks : Anchor} {i : Nat} {e : Edge}

/-- **What the nodes of a fragment look like.** -/
structure Shape (f : Fragment) (G : Graph Nat) (S : Set Nat) (anchor : Anchor) : Prop where
  /-- All nodes but the exit lead on. -/
  inner : ∀ i ∈ S, i ≠ f.last → ∃ n, G i = some n ∧ n.Inner
  /-- The exit leads nowhere, and carries the anchor. -/
  exit : ∃ n, G f.last = some n ∧ n.Exit anchor
  /-- References lead from the entrance to every node. -/
  led : ∀ i ∈ S, G.Leads f.first i

namespace Shape

theorem exists_refers {j : Nat} {n : Node Nat} (hn : G i = some n)
    (hj : n.next = some j ∨ n.other = some j) : G.Refers i j :=
  ⟨n, hn, Node.mem_refs.2 hj⟩

/-- What is behind the exit does not matter to the way from the entrance. -/
theorem led_after (hs : f.Shape G S anchor) (hf : f.Spans G S L)
    (hG : ∀ i ∈ S, i ≠ f.last → G' i = G i) (hi : i ∈ S) : G'.Leads f.first i :=
  (hs.led i hi).until_exit hf.closed hG hf.exit hf.first_mem

/-- When the exit leads on, every node does. -/
theorem inner_after (hs : f.Shape G S anchor) (hG : ∀ i ∈ S, i ≠ f.last → G' i = G i)
    (hexit : ∃ n, G' f.last = some n ∧ n.Inner) (hi : i ∈ S) : ∃ n, G' i = some n ∧ n.Inner := by
  by_cases hlast : i = f.last
  · exact hlast ▸ hexit
  · rw [hG i hi hlast]
    exact hs.inner i hi hlast

/-- What happens outside does not matter at all. -/
theorem congr (hs : f.Shape G S anchor) (hf : f.Spans G S L) (hG : ∀ i ∈ S, G' i = G i) :
    f.Shape G' S anchor where
  inner i hi hlast := by
    rw [hG i hi]
    exact hs.inner i hi hlast
  exit := by
    rw [hG _ hf.last_mem]
    exact hs.exit
  led i hi := hs.led_after hf (fun j hj _ => hG j hj) hi

/-- The exit may carry any anchor. -/
theorem setAnchor (hs : f.Shape G S Anchor.none) (hf : f.Spans G S L)
    (hG : ∀ i ∈ S, i ≠ f.last → G' i = G i)
    (hlast : ∀ l, G f.last = some l → G' f.last = some { l with anchor }) :
    f.Shape G' S anchor where
  inner i hi hne := by
    rw [hG i hi hne]
    exact hs.inner i hi hne
  exit := by
    obtain ⟨l, hl, hexit⟩ := hs.exit
    exact ⟨_, hlast l hl, hexit.edge, hexit.next, hexit.other, rfl⟩
  led i hi := hs.led_after hf hG hi

/-! ## §2. Constructions keep the shape. -/

theorem lays (h : f.Lays e G G') :
    f.Shape G' {f.first, f.last} Anchor.none where
  inner i hi hlast := by
    rcases hi with hi | hi
    · rw [hi, h.entry]
      exact ⟨_, rfl, Option.some_ne_none _, fun _ => rfl, rfl⟩
    · exact absurd hi hlast
  exit := ⟨_, h.exit, Node.exit_fresh _⟩
  led i hi := by
    rcases hi with hi | hi
    · exact hi ▸ .refl _
    · exact hi ▸ .single (exists_refers h.entry (.inl rfl))

/-- **Splicing** moves an entrance, which leads on, into the exit. -/
theorem splice (hs : f.Shape G S Anchor.none) (hf : f.Spans G S L) (hs' : g.Shape G T anchor)
    (hg : g.Spans G T M) (hST : ∀ i ∈ S, i ∉ T) (h : f.Splices g G G') :
    Shape ⟨f.first, g.last⟩ G' ((S ∪ T) \ {g.first}) anchor := by
  have hne : ∀ {i j}, i ∈ S → j ∈ T → i ≠ j := fun hi hj h => hST _ hi (h ▸ hj)
  have hGS : ∀ i ∈ S, i ≠ f.last → G' i = G i :=
    fun i hi hlast => h.rest i hlast (hne hi hg.first_mem)
  have hGT : ∀ i ∈ T \ {g.first}, G' i = G i :=
    fun i hi => h.rest i (hne hf.last_mem hi.1).symm hi.2
  obtain ⟨t, ht, _⟩ := hs.exit
  obtain ⟨n, hn, hinner⟩ := hs'.inner _ hg.first_mem hg.first_ne_last
  have hmoved := h.moved n t hn ht
  refine ⟨?_, ?_, ?_⟩
  · intro i hi hlast
    obtain ⟨hi | hi, hfirst⟩ := hi
    · have hexit : Node.Inner { n with index := t.index } :=
        ⟨hinner.next, hinner.other, hinner.anchor⟩
      exact hs.inner_after hGS ⟨_, hmoved, hexit⟩ hi
    · rw [hGT i ⟨hi, hfirst⟩]
      exact hs'.inner i hi hlast
  · rw [hGT g.last ⟨hg.last_mem, hg.first_ne_last.symm⟩]
    exact hs'.exit
  · intro i hi
    obtain ⟨hi | hi, hfirst⟩ := hi
    · exact hs.led_after hf hGS hi
    · -- the way from the second entrance goes on from the first exit
      refine (hs.led_after hf hGS hf.last_mem).trans ?_
      rcases Relation.ReflTransGen.cases_head (hs'.led i hi) with heq | ⟨j, ⟨m, hm, hj⟩, hway⟩
      · exact absurd heq.symm hfirst
      · rw [hn] at hm
        cases hm
        have hjT := hg.mem_of_mem_refs hg.first_mem hn hj
        exact .head ⟨_, hmoved, hj⟩ (Graph.Leads.congr hg.closed_without_first hGT hjT hway)

/-- **Enclosing** lets the old exit lead to the new one. -/
theorem enclose {skips repeats : Bool} (hs : f.Shape G S Anchor.none) (hf : f.Spans G S L)
    (h : g.Encloses f skips repeats G G') : g.Shape G' ({g.first, g.last} ∪ S) Anchor.none := by
  have hfirst := hf.not_mem_of_none h.first_unused
  have hlast := hf.not_mem_of_none h.last_unused
  have hG : ∀ i ∈ S, i ≠ f.last → G' i = G i := fun i hi hne =>
    h.rest i hne (ne_of_mem_of_not_mem hi hfirst) (ne_of_mem_of_not_mem hi hlast)
  obtain ⟨l, hl, hexit⟩ := hs.exit
  have hway : ∀ i ∈ S, G'.Leads g.first i := fun i hi =>
    .head (exists_refers h.entry (.inl rfl)) (hs.led_after hf hG hi)
  refine ⟨?_, ⟨_, h.exit, Node.exit_fresh _⟩, ?_⟩
  · intro i hi hne
    rcases hi with (hi | hi) | hi
    · rw [hi, h.entry]
      exact ⟨_, rfl, Node.inner_of_epsilon rfl (Option.some_ne_none _) rfl⟩
    · exact absurd hi hne
    · exact hs.inner_after hG ⟨_, h.back l hl,
        Node.inner_of_epsilon hexit.edge (Option.some_ne_none _) hexit.anchor⟩ hi
  · intro i hi
    rcases hi with (hi | hi) | hi
    · exact hi ▸ .refl _
    · have hback := exists_refers (h.back l hl) (.inl rfl)
      exact hi ▸ (hway _ hf.last_mem).trans (.single hback)
    · exact hway i hi

/-- **Joining** lets both old exits lead to the new one. -/
theorem join (hs : f.Shape G S Anchor.none) (hf : f.Spans G S L) (hs' : g.Shape G T Anchor.none)
    (hg : g.Spans G T M) (hST : ∀ i ∈ S, i ∉ T) (hj : h.Joins f g G G') :
    h.Shape G' ({h.first, h.last} ∪ (S ∪ T)) Anchor.none := by
  have hGS : ∀ i ∈ S, i ≠ f.last → G' i = G i := by
    intro i hi hne
    exact hj.rest i hne (fun h => hST _ hi (h ▸ hg.last_mem))
      (ne_of_mem_of_not_mem hi (hf.not_mem_of_none hj.first_unused))
      (ne_of_mem_of_not_mem hi (hf.not_mem_of_none hj.last_unused))
  have hGT : ∀ i ∈ T, i ≠ g.last → G' i = G i := by
    intro i hi hne
    exact hj.rest i (fun h => hST _ hf.last_mem (h ▸ hi)) hne
      (ne_of_mem_of_not_mem hi (hg.not_mem_of_none hj.first_unused))
      (ne_of_mem_of_not_mem hi (hg.not_mem_of_none hj.last_unused))
  obtain ⟨l, hl, hlexit⟩ := hs.exit
  obtain ⟨r, hr, hrexit⟩ := hs'.exit
  have hwayS : ∀ i ∈ S, G'.Leads h.first i := fun i hi =>
    .head (exists_refers hj.entry (.inl rfl)) (hs.led_after hf hGS hi)
  have hwayT : ∀ i ∈ T, G'.Leads h.first i := fun i hi =>
    .head (exists_refers hj.entry (.inr rfl)) (hs'.led_after hg hGT hi)
  refine ⟨?_, ⟨_, hj.exit, Node.exit_fresh _⟩, ?_⟩
  · intro i hi hne
    rcases hi with (hi | hi) | hi | hi
    · rw [hi, hj.entry]
      exact ⟨_, rfl, Node.inner_of_epsilon rfl (Option.some_ne_none _) rfl⟩
    · exact absurd hi hne
    · exact hs.inner_after hGS ⟨_, hj.left l hl,
        Node.inner_of_epsilon hlexit.edge (Option.some_ne_none _) hlexit.anchor⟩ hi
    · exact hs'.inner_after hGT ⟨_, hj.right r hr,
        Node.inner_of_epsilon hrexit.edge (Option.some_ne_none _) hrexit.anchor⟩ hi
  · intro i hi
    rcases hi with (hi | hi) | hi | hi
    · exact hi ▸ .refl _
    · have hleft := exists_refers (hj.left l hl) (.inl rfl)
      exact hi ▸ (hwayS _ hf.last_mem).trans (.single hleft)
    · exact hwayS i hi
    · exact hwayT i hi

/-- A node before a fragment leads on to it. -/
theorem precede (hs : f.Shape G S Anchor.none) (hf : f.Spans G S L) (hi : i ∉ S)
    (h : f.Precedes i G G') : Shape ⟨i, f.last⟩ G' ({i} ∪ S) Anchor.none := by
  have hG : ∀ k ∈ S, G' k = G k := fun k hk => h.rest k (ne_of_mem_of_not_mem hk hi)
  refine ⟨?_, ?_, ?_⟩
  · intro k hk hne
    rcases hk with hk | hk
    · rw [show k = i from hk, h.entry]
      exact ⟨_, rfl, Option.some_ne_none _, fun _ => rfl, rfl⟩
    · rw [hG k hk]
      exact hs.inner k hk hne
  · rw [hG _ hf.last_mem]
    exact hs.exit
  · intro k hk
    rcases hk with hk | hk
    · exact hk ▸ .refl _
    · exact .head (exists_refers h.entry (.inl rfl)) (hs.led_after hf (fun j hj _ => hG j hj) hk)

/-- A new exit behind a line end. -/
theorem endLine (hs : f.Shape G S Anchor.none) (hf : f.Spans G S L) (h : g.EndsLine f G G') :
    g.Shape G' (S ∪ {g.last}) Anchor.none := by
  have hlast := hf.not_mem_of_none h.last_unused
  have hG : ∀ k ∈ S, k ≠ f.last → G' k = G k :=
    fun k hk hne => h.rest k hne (ne_of_mem_of_not_mem hk hlast)
  obtain ⟨l, hl, hexit⟩ := hs.exit
  refine ⟨?_, ⟨_, h.exit, Node.exit_fresh _⟩, ?_⟩
  · intro k hk hne
    rcases hk with hk | hk
    · exact hs.inner_after hG ⟨_, h.back l hl,
        Option.some_ne_none _, fun _ => hexit.other, hexit.anchor⟩ hk
    · exact absurd hk hne
  · intro k hk
    rw [h.first_eq]
    rcases hk with hk | hk
    · exact hs.led_after hf hG hk
    · have hback := exists_refers (h.back l hl) (.inl rfl)
      exact hk ▸ (hs.led_after hf hG hf.last_mem).trans (.single hback)

end Shape

/-! ## §3. The ends of a line. -/

/-- **The marks of a rule on its nodes.** -/
structure Marked (f : Fragment) (G : Graph Nat) (S : Set Nat) (marks : Anchor) : Prop where
  /-- A rule that begins a line enters on a line feed. -/
  starts : marks.bol = true → ∃ n, G f.first = some n ∧ n.edge = .byte Symbol.lineFeed.toByte
  /-- A rule that ends a line leaves on a line end. -/
  ends : marks.eol = true → ∀ i ∈ S, ∀ n, G i = some n → f.last ∈ n.refs →
    n.edge = .cls CharClass.lineEnd

end Fragment

/-- A word fits an anchor: it begins with a line feed if it must begin a line,
and ends with a line feed or a carriage return if it must end one. -/
structure Anchor.Fits (anchor : Anchor) (w : Word) : Prop where
  /-- What begins a line. -/
  bol : anchor.bol = true → w.head? = some Symbol.lineFeed.toByte
  /-- What ends a line. -/
  eol : anchor.eol = true →
    w.getLast? = some Symbol.lineFeed.toByte ∨ w.getLast? = some Symbol.carriageReturn.toByte

theorem CharClass.admits_lineEnd {b : UInt8} (h : CharClass.lineEnd.admits b = true) :
    b = Symbol.lineFeed.toByte ∨ b = Symbol.carriageReturn.toByte := by
  rw [← UInt8.toNat_inj, ← UInt8.toNat_inj, Symbol.toNat_toByte, Symbol.toNat_toByte]
  simpa [CharClass.admits, CharClass.lineEnd, BitSet.contains_ofList] using h

namespace Fragment.Marked

variable {f g : Fragment} {G G' : Graph Nat} {S : Set Nat} {L : Language UInt8}
  {marks : Anchor} {i : Nat} {bol : Bool}

theorem none (f : Fragment) (G : Graph Nat) (S : Set Nat) : f.Marked G S Anchor.none :=
  ⟨fun h => absurd h Bool.false_ne_true, fun h => absurd h Bool.false_ne_true⟩

/-- The marks are not on the exit. -/
theorem congr (hm : f.Marked G S marks) (hf : f.Spans G S L)
    (hG : ∀ i ∈ S, i ≠ f.last → G' i = G i) (hexit : G'.At f.last .epsilon .none .none) :
    f.Marked G' S marks where
  starts h := by
    rw [hG _ hf.first_mem hf.first_ne_last]
    exact hm.starts h
  ends h i hi n hn hlast := by
    have hne : i ≠ f.last := fun heq => hexit.not_refers f.last ⟨n, heq ▸ hn, hlast⟩
    rw [hG i hi hne] at hn
    exact hm.ends h i hi n hn hlast

theorem precede (h : f.Precedes i G G') : Marked ⟨i, f.last⟩ G' ({i} ∪ S) ⟨true, false⟩ where
  starts _ := ⟨_, h.entry, rfl⟩
  ends h := by cases h

theorem endLine (hm : f.Marked G S ⟨bol, false⟩) (hf : f.Spans G S L) (h : g.EndsLine f G G') :
    g.Marked G' (S ∪ {g.last}) ⟨bol, true⟩ := by
  have hlast := hf.not_mem_of_none h.last_unused
  refine ⟨fun hbol => ?_, fun _ i hi n hn hrefs => ?_⟩
  · rw [h.first_eq, h.rest _ hf.first_ne_last (ne_of_mem_of_not_mem hf.first_mem hlast)]
    exact hm.starts hbol
  · rcases hi with hi | hi
    · by_cases hi' : i = f.last
      · obtain ⟨l, hl, _⟩ := hf.exit
        rw [hi', h.back l hl] at hn
        cases hn
        rfl
      · -- no other node of the fragment knows the new exit
        rw [h.rest i hi' (ne_of_mem_of_not_mem hi hlast)] at hn
        exact absurd (hf.closed i hi n hn _ hrefs) hlast
    · rw [show i = g.last from hi, h.exit] at hn
      cases hn
      simp [Node.refs, Node.fresh] at hrefs

/-- **Whatever walks through a rule fits its marks.** -/
theorem fits (hm : f.Marked G S marks) (hf : f.Spans G S L) {w : Word}
    (h : Walk G f.first w f.last) : marks.Fits w where
  bol hbol := by
    obtain ⟨n, hn, hedge⟩ := hm.starts hbol
    obtain ⟨b, hb, hadmits⟩ := h.exists_first_byte hn (by simp [hedge]) hf.first_ne_last
    rw [hedge] at hadmits
    rw [hb, ← beq_iff_eq.1 hadmits]
  eol heol := by
    rcases h.exists_last_move with ⟨heq, _⟩ | ⟨j, n, u, hu, hn, hlast, hmove⟩
    · exact absurd heq hf.first_ne_last
    · have hedge := hm.ends heol j (hu.mem_of_closed hf.closed hf.first_mem) n hn hlast
      obtain ⟨b, rfl, hadmits⟩ := hmove (by simp [hedge])
      rw [hedge] at hadmits
      rcases CharClass.admits_lineEnd hadmits with hb | hb
      · exact .inl (by rw [List.getLast?_concat, hb])
      · exact .inr (by rw [List.getLast?_concat, hb])

end Fragment.Marked

end LineScan
