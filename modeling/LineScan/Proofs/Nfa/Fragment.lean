/-
  LineScan.Proofs.Nfa.Fragment
  ────────────────────────────
  **FRAGMENTS OF A GRAPH.**

  `f.Spans G S L`: the nodes of `S` form a fragment of `G` with the entrance
  and the exit of `f`.  References stay inside, none leads back to the
  entrance, and nothing leads on from the exit; first references lead from
  every node to the exit; the runs from the entrance to the exit have the
  language `L`.

  That no reference leads to an entrance is what makes splicing sound: the
  entrance of the second fragment can move into the exit of the first one and
  nobody notices.  That nothing leads on from an exit makes every fragment a
  factor of whatever is built around it.  The lemmas below say so for each
  way of putting fragments together; they speak of any two graphs that differ
  as the construction makes them differ.
-/
import LineScan.Nfa.Thompson
import LineScan.Proofs.Nfa.Onward
import LineScan.Proofs.Nfa.Runs

namespace LineScan

open Computability

namespace Fragment

/-! ## §1. Fragments. -/

/-- A slot inside a fragment: references stay inside and avoid the entrance,
and only the exit lacks a first one. -/
def Inside (f : Fragment) (G : Graph Nat) (S : Set Nat) (i : Nat) : Prop :=
  ∃ edge next other, G.At i edge next other ∧
    (∀ j, next = some j ∨ other = some j → j ∈ S ∧ j ≠ f.first) ∧ (i ≠ f.last → next ≠ none)

/-- **The nodes of a set form a fragment with a language.** -/
structure Spans (f : Fragment) (G : Graph Nat) (S : Set Nat) (L : Language UInt8) : Prop where
  /-- The entrance belongs to the fragment. -/
  first_mem : f.first ∈ S
  /-- The exit belongs to the fragment. -/
  last_mem : f.last ∈ S
  /-- They are not the same node. -/
  first_ne_last : f.first ≠ f.last
  /-- Nothing is consumed at the exit and nothing leads on from it. -/
  exit : G.At f.last .epsilon none none
  /-- Every slot of the set is inside the fragment. -/
  inside : ∀ i ∈ S, f.Inside G S i
  /-- First references lead from every slot to the exit. -/
  onward : ∀ i ∈ S, G.Onward i f.last
  /-- The words from the entrance to the exit. -/
  language : runs G f.first f.last = L

theorem closed_of_inside {f : Fragment} {G : Graph Nat} {S : Set Nat}
    (h : ∀ i ∈ S, f.Inside G S i) : G.Closed S := by
  intro i hi n hn j hj
  obtain ⟨_, _, _, ⟨n', hn', _, hnext, hother⟩, hrefs, _⟩ := h i hi
  rw [hn] at hn'
  cases hn'
  rw [Node.mem_refs, hnext, hother] at hj
  exact (hrefs j hj).1

theorem inside_of_exit {f : Fragment} {G : Graph Nat} {S : Set Nat}
    (h : G.At f.last .epsilon none none) : f.Inside G S f.last := by
  refine ⟨_, _, _, h, ?_, fun hne => absurd rfl hne⟩
  intro j hj
  rcases hj with hj | hj <;> cases hj

theorem inside_of_next {f : Fragment} {G : Graph Nat} {S : Set Nat} {i k : Nat} {e : Edge}
    {other : Option Nat} (h : G.At i e (some k) other) (hk : k ∈ S ∧ k ≠ f.first)
    (hother : ∀ j, other = some j → j ∈ S ∧ j ≠ f.first) : f.Inside G S i := by
  refine ⟨_, _, _, h, ?_, fun _ hnone => by cases hnone⟩
  intro j hj
  rcases hj with hj | hj
  · cases hj
    exact hk
  · exact hother j hj

/-- A node with one reference. -/
theorem inside_of_next_only {f : Fragment} {G : Graph Nat} {S : Set Nat} {i k : Nat} {e : Edge}
    (h : G.At i e (some k) none) (hk : k ∈ S) (hne : k ≠ f.first) : f.Inside G S i :=
  inside_of_next h ⟨hk, hne⟩ fun _ hj => by cases hj

namespace Spans

variable {f f' g : Fragment} {G G' : Graph Nat} {S S' T : Set Nat} {L M : Language UInt8} {i : Nat}

theorem closed (hf : f.Spans G S L) : G.Closed S := closed_of_inside hf.inside

theorem live (hf : f.Spans G S L) (hi : i ∈ S) : ∃ n, G i = some n := by
  obtain ⟨_, _, _, ⟨n, hn, _⟩, _⟩ := hf.inside i hi
  exact ⟨n, hn⟩

/-- References stay inside and do not lead back to the entrance. -/
theorem mem_of_mem_refs {n : Node Nat} {j : Nat} (hf : f.Spans G S L) (hi : i ∈ S)
    (hn : G i = some n) (hj : j ∈ n.refs) : j ∈ S \ {f.first} := by
  obtain ⟨_, _, _, ⟨n', hn', _, hnext, hother⟩, hin, _⟩ := hf.inside i hi
  rw [hn] at hn'
  cases hn'
  rw [Node.mem_refs, hnext, hother] at hj
  exact hin j hj

/-- So what is behind the entrance is closed. -/
theorem closed_without_first (hf : f.Spans G S L) : G.Closed (S \ {f.first}) :=
  fun _ hi _ hn _ hj => hf.mem_of_mem_refs hi.1 hn hj

/-- A slot that holds no node is outside. -/
theorem not_mem_of_none (hf : f.Spans G S L) (hi : G i = none) : i ∉ S := by
  intro hmem
  obtain ⟨n, hn⟩ := hf.live hmem
  rw [hi] at hn
  cases hn

theorem runs_eq (hf : f.Spans G S L) (hG : ∀ i ∈ S, G' i = G i) (hi : i ∈ S) (t : Nat) :
    runs G' i t = runs G i t := by
  ext w
  exact Path.congr_iff hf.closed hG hi

/-- A node stays inside when a fragment becomes part of another one. -/
theorem inside_of_subset (hf : f.Spans G S L) (hi : i ∈ S) (hlast : i ≠ f.last)
    (hG : G' i = G i) (hS : S ⊆ S') (hfirst : f'.first ∉ S) : f'.Inside G' S' i := by
  obtain ⟨e, next, other, hat, hrefs, hnext⟩ := hf.inside i hi
  refine ⟨e, next, other, hat.congr hG, ?_, fun _ => hnext hlast⟩
  intro j hj
  have hj' := (hrefs j hj).1
  exact ⟨hS hj', ne_of_mem_of_not_mem hj' hfirst⟩

/-- A fragment does not notice what happens outside. -/
theorem congr (hf : f.Spans G S L) (hG : ∀ i ∈ S, G' i = G i) : f.Spans G' S L := by
  refine ⟨hf.first_mem, hf.last_mem, hf.first_ne_last, hf.exit.congr (hG _ hf.last_mem), ?_,
    fun i hi => (hf.onward i hi).congr hf.closed hG hi, ?_⟩
  · intro i hi
    obtain ⟨e, next, other, hat, hrest⟩ := hf.inside i hi
    exact ⟨e, next, other, hat.congr (hG i hi), hrest⟩
  · rw [hf.runs_eq hG hf.first_mem, hf.language]

/-- The way to the exit does not depend on what is behind the exit. -/
theorem onward_last (hf : f.Spans G S L) (hG : ∀ i ∈ S, i ≠ f.last → G' i = G i) (hi : i ∈ S) :
    G'.Onward i f.last :=
  (hf.onward i hi).until_exit hf.closed hG hf.exit hi

/-- Nor does it matter what else its exit carries. -/
theorem congr_exit (hf : f.Spans G S L) (hG : ∀ i ∈ S, i ≠ f.last → G' i = G i)
    (hexit : G'.At f.last .epsilon none none) : f.Spans G' S L := by
  have hinside : ∀ i ∈ S, f.Inside G' S i := by
    intro i hi
    by_cases hi' : i = f.last
    · subst hi'
      exact inside_of_exit hexit
    · obtain ⟨e, next, other, hat, hrest⟩ := hf.inside i hi
      exact ⟨e, next, other, hat.congr (hG i hi hi'), hrest⟩
  refine ⟨hf.first_mem, hf.last_mem, hf.first_ne_last, hexit, hinside,
    fun i hi => hf.onward_last hG hi, ?_⟩
  rw [← hf.language]
  ext w
  constructor
  · exact Path.until_exit (closed_of_inside hinside) (fun i hi hne => (hG i hi hne).symm) hexit
      hf.first_mem
  · exact Path.until_exit hf.closed hG hf.exit hf.first_mem

/-- What a fragment contributes to runs that go on behind it. -/
theorem runs_first (hf : f.Spans G S L) (hG : ∀ i ∈ S, i ≠ f.last → G' i = G i) {t : Nat}
    (ht : t ∉ S) : runs G' f.first t = L * runs G' f.last t := by
  rw [runs_through_exit hf.closed hG hf.exit hf.first_mem ht, hf.language]

/-- A run from the entrance of a fragment can only stop at the exit. -/
theorem accepted_first (hf : f.Spans G S L) : accepted G f.first = L := by
  ext w
  constructor
  · intro h
    obtain ⟨t, n, hp, hn, hterm⟩ := h
    obtain ⟨_, _, _, ⟨m, hm, _, hnext, _⟩, _, hgo⟩ :=
      hf.inside t (hp.mem_of_closed hf.closed hf.first_mem)
    rw [hn] at hm
    cases hm
    by_cases ht : t = f.last
    · rw [← hf.language]
      exact ht ▸ hp
    · -- every other node has a first reference
      rw [Node.isTerminal, hnext, Option.isNone_iff_eq_none] at hterm
      exact absurd hterm (hgo ht)
  · intro h
    rw [← hf.language] at h
    obtain ⟨n, hn, _, hnext, _⟩ := hf.exit
    exact ⟨f.last, n, h, hn, by rw [Node.isTerminal, hnext]; rfl⟩

/-! ## §2. A single edge. -/

theorem edge {first last : Nat} {e : Edge} (hne : first ≠ last) (he : e ≠ .epsilon)
    (hin : e.InAlphabet) (hfirst : G.At first e (some last) none)
    (hlast : G.At last .epsilon none none) :
    Spans ⟨first, last⟩ G {first, last} (oneSymbol e.symbols) := by
  refine ⟨.inl rfl, .inr rfl, hne, hlast, ?_, ?_, ?_⟩
  · intro i hi
    rcases hi with hi | hi
    · subst hi
      exact inside_of_next_only hfirst (.inr rfl) (Ne.symm hne)
    · rw [Set.mem_singleton_iff] at hi
      subst hi
      exact inside_of_exit hlast
  · intro i hi
    rcases hi with hi | hi
    · subst hi
      exact hfirst.onward hin
    · rw [Set.mem_singleton_iff] at hi
      subst hi
      exact .refl _
  · rw [runs_of_consuming hfirst he hne, runs_self_of_stuck hlast, mul_one]

/-! ## §3. One after the other. -/

/-- **Splicing concatenates**: the exit of the first fragment takes over the
node at the entrance of the second one. -/
theorem cat {e : Edge} {next other : Option Nat} (hf : f.Spans G S L) (hg : g.Spans G T M)
    (hST : ∀ i ∈ S, i ∉ T) (hsource : G.At g.first e next other)
    (htarget : G'.At f.last e next other)
    (hG : ∀ i ∈ S ∪ T, i ≠ f.last → i ≠ g.first → G' i = G i) :
    Spans ⟨f.first, g.last⟩ G' ((S ∪ T) \ {g.first}) (L * M) := by
  have hne : ∀ {i j}, i ∈ S → j ∈ T → i ≠ j := fun hi hj h => hST _ hi (h ▸ hj)
  have hrefs : (∀ j, next = some j ∨ other = some j → j ∈ T ∧ j ≠ g.first) ∧ next ≠ none := by
    obtain ⟨_, _, _, ⟨n, hn, _, hnext, hother⟩, hin, hon⟩ := hg.inside _ hg.first_mem
    obtain ⟨n', hn', _, hnext', hother'⟩ := hsource
    rw [hn] at hn'
    cases hn'
    rw [← hnext', ← hother', hnext, hother]
    exact ⟨hin, hon hg.first_ne_last⟩
  have hGS : ∀ i ∈ S, i ≠ f.last → G' i = G i := by
    intro i hi hlast
    exact hG i (.inl hi) hlast (hne hi hg.first_mem)
  have hGT : ∀ i ∈ T \ {g.first}, G' i = G i := by
    intro i hi
    exact hG i (.inr hi.1) (hne hf.last_mem hi.1).symm hi.2
  have hclosed := hg.closed_without_first
  -- the first exit is kept as a slot, the second entrance is given up
  refine ⟨⟨.inl hf.first_mem, hne hf.first_mem hg.first_mem⟩,
    ⟨.inr hg.last_mem, hg.first_ne_last.symm⟩, hne hf.first_mem hg.last_mem,
    hg.exit.congr (hGT g.last ⟨hg.last_mem, hg.first_ne_last.symm⟩), ?_, ?_, ?_⟩
  · intro i hi
    obtain ⟨hi, hifirst⟩ := hi
    by_cases hlast : i = f.last
    · -- the node that moved: its references are those of the second entrance
      subst hlast
      refine ⟨e, next, other, htarget, ?_, fun _ => hrefs.2⟩
      intro j hj
      obtain ⟨hjT, hjfirst⟩ := hrefs.1 j hj
      exact ⟨⟨.inr hjT, hjfirst⟩, (hne hf.first_mem hjT).symm⟩
    · have hGi : G' i = G i := hG i hi hlast hifirst
      rcases hi with hi | hi
      · obtain ⟨e', next', other', hat, hin, hon⟩ := hf.inside i hi
        refine ⟨e', next', other', hat.congr hGi, ?_, fun _ => hon hlast⟩
        intro j hj
        obtain ⟨hjS, hjfirst⟩ := hin j hj
        exact ⟨⟨.inl hjS, hne hjS hg.first_mem⟩, hjfirst⟩
      · obtain ⟨e', next', other', hat, hin, hon⟩ := hg.inside i hi
        refine ⟨e', next', other', hat.congr hGi, ?_, hon⟩
        intro j hj
        obtain ⟨hjT, hjfirst⟩ := hin j hj
        exact ⟨⟨.inr hjT, hjfirst⟩, (hne hf.first_mem hjT).symm⟩
  · -- the first exit goes on as the second entrance did
    have hlast : G'.Onward f.last g.last := by
      obtain ⟨j, ⟨n, hn, hnext, hin⟩, hj⟩ :=
        (hg.onward _ hg.first_mem).exists_step hg.first_ne_last
      obtain ⟨m, hm, hmedge, hmnext, _⟩ := hsource
      rw [hn] at hm
      cases hm
      rw [hnext] at hmnext
      subst hmnext
      obtain ⟨hjT, hjfirst⟩ := hrefs.1 j (.inl rfl)
      exact (htarget.onward (hmedge ▸ hin)).trans (hj.congr hclosed hGT ⟨hjT, hjfirst⟩)
    intro i hi
    rcases hi.1 with hiS | hiT
    · exact (hf.onward_last hGS hiS).trans hlast
    · exact (hg.onward i hiT).congr hclosed hGT ⟨hiT, hi.2⟩
  · -- behind the first exit a run goes on as from the second entrance
    have htail : runs G' f.last g.last = M := by
      rw [← hg.language]
      apply runs_eq_of_at hsource htarget hg.first_ne_last (hne hf.last_mem hg.last_mem)
      intro j hj
      ext w
      exact Path.congr_iff hclosed hGT (hrefs.1 j hj)
    rw [hf.runs_first hGS fun h => hST _ h hg.last_mem, htail]

/-! ## §4. One or the other. -/

/-- **A fork before two fragments and a join behind them** let a run choose. -/
theorem either {fork join : Nat} (hf : f.Spans G S L) (hg : g.Spans G T M)
    (hST : ∀ i ∈ S, i ∉ T) (hforkS : fork ∉ S) (hforkT : fork ∉ T) (hjoinS : join ∉ S)
    (hjoinT : join ∉ T) (hne : fork ≠ join)
    (hfork : G'.At fork .epsilon (some f.first) (some g.first))
    (hjoin : G'.At join .epsilon none none) (hleft : G'.At f.last .epsilon (some join) none)
    (hright : G'.At g.last .epsilon (some join) none)
    (hG : ∀ i ∈ S ∪ T, i ≠ f.last → i ≠ g.last → G' i = G i) :
    Spans ⟨fork, join⟩ G' ({fork, join} ∪ (S ∪ T)) (L + M) := by
  have hGS : ∀ i ∈ S, i ≠ f.last → G' i = G i := by
    intro i hi hlast
    exact hG i (.inl hi) hlast fun h => hST _ hi (h ▸ hg.last_mem)
  have hGT : ∀ i ∈ T, i ≠ g.last → G' i = G i := by
    intro i hi hlast
    exact hG i (.inr hi) (fun h => hST _ hf.last_mem (h ▸ hi)) hlast
  have hlast : ∀ {i}, G'.At i .epsilon (some join) none →
      Inside ⟨fork, join⟩ G' ({fork, join} ∪ (S ∪ T)) i := by
    intro i hat
    exact inside_of_next_only hat (.inl (.inr rfl)) hne.symm
  refine ⟨.inl (.inl rfl), .inl (.inr rfl), hne, hjoin, ?_, ?_, ?_⟩
  · intro i hi
    rcases hi with (hi | hi) | hi | hi
    · subst hi
      apply inside_of_next hfork
        ⟨.inr (.inl hf.first_mem), ne_of_mem_of_not_mem hf.first_mem hforkS⟩
      intro j hj
      cases hj
      exact ⟨.inr (.inr hg.first_mem), ne_of_mem_of_not_mem hg.first_mem hforkT⟩
    · rw [Set.mem_singleton_iff] at hi
      subst hi
      exact inside_of_exit hjoin
    · by_cases hi' : i = f.last
      · subst hi'
        exact hlast hleft
      · exact hf.inside_of_subset hi hi' (hGS i hi hi') (fun j hj => .inr (.inl hj)) hforkS
    · by_cases hi' : i = g.last
      · subst hi'
        exact hlast hright
      · exact hg.inside_of_subset hi hi' (hGT i hi hi') (fun j hj => .inr (.inr hj)) hforkT
  · have hleftWay : ∀ i ∈ S, G'.Onward i join := fun i hi =>
      (hf.onward_last hGS hi).trans (hleft.onward Edge.inAlphabet_epsilon)
    intro i hi
    rcases hi with (hi | hi) | hi | hi
    · subst hi
      exact (hfork.onward Edge.inAlphabet_epsilon).trans (hleftWay _ hf.first_mem)
    · rw [Set.mem_singleton_iff] at hi
      subst hi
      exact .refl _
    · exact hleftWay i hi
    · exact (hg.onward_last hGT hi).trans (hright.onward Edge.inAlphabet_epsilon)
  · -- both exits lead on to the join and nowhere else
    have hleftOut : runs G' f.last join = 1 := by
      rw [runs_of_epsilon_one hleft (ne_of_mem_of_not_mem hf.last_mem hjoinS),
        runs_self_of_stuck hjoin]
    have hrightOut : runs G' g.last join = 1 := by
      rw [runs_of_epsilon_one hright (ne_of_mem_of_not_mem hg.last_mem hjoinT),
        runs_self_of_stuck hjoin]
    rw [runs_of_epsilon_two hfork hne, hf.runs_first hGS hjoinS, hg.runs_first hGT hjoinT,
      hleftOut, hrightOut, mul_one, mul_one]

/-! ## §5. Any number of times. -/

/-- **A new entrance and a new exit around a fragment**: a run may pass by
the fragment, and may go through it again and again. -/
theorem enclose {first last : Nat} {skips repeats : Bool} (hf : f.Spans G S L)
    (hfirst : first ∉ S) (hlast : last ∉ S) (hne : first ≠ last)
    (hentry : G'.At first .epsilon (some f.first) (if skips then some last else none))
    (hback : G'.At f.last .epsilon (some last) (if repeats then some f.first else none))
    (hexit : G'.At last .epsilon none none) (hG : ∀ i ∈ S, i ≠ f.last → G' i = G i) :
    Spans ⟨first, last⟩ G' ({first, last} ∪ S)
      ((if skips then 1 else 0) + L * (if repeats then L∗ else 1)) := by
  refine ⟨.inl (.inl rfl), .inl (.inr rfl), hne, hexit, ?_, ?_, ?_⟩
  · intro i hi
    rcases hi with (hi | hi) | hi
    · subst hi
      apply inside_of_next hentry
        ⟨.inr hf.first_mem, ne_of_mem_of_not_mem hf.first_mem hfirst⟩
      intro j hj
      cases skips with
      | false => cases hj
      | true =>
          cases hj
          exact ⟨.inl (.inr rfl), hne.symm⟩
    · rw [Set.mem_singleton_iff] at hi
      subst hi
      exact inside_of_exit hexit
    · by_cases hi' : i = f.last
      · -- the way back leads to the old entrance, which is not one any more
        subst hi'
        apply inside_of_next hback ⟨.inl (.inr rfl), hne.symm⟩
        intro j hj
        cases repeats with
        | false => cases hj
        | true =>
            cases hj
            exact ⟨.inr hf.first_mem, ne_of_mem_of_not_mem hf.first_mem hfirst⟩
      · exact hf.inside_of_subset hi hi' (hG i hi hi') (fun j hj => .inr hj) hfirst
  · have hbodyWay : ∀ i ∈ S, G'.Onward i last := fun i hi =>
      (hf.onward_last hG hi).trans (hback.onward Edge.inAlphabet_epsilon)
    intro i hi
    rcases hi with (hi | hi) | hi
    · subst hi
      exact (hentry.onward Edge.inAlphabet_epsilon).trans (hbodyWay _ hf.first_mem)
    · rw [Set.mem_singleton_iff] at hi
      subst hi
      exact .refl _
    · exact hbodyWay i hi
  · -- without the way back there is one round, with it there are one or more
    have hbody : runs G' f.first last = L * (if repeats then L∗ else 1) := by
      rw [hf.runs_first hG hlast]
      cases repeats with
      | false =>
          rw [runs_of_epsilon_one hback (ne_of_mem_of_not_mem hf.last_mem hlast),
            runs_self_of_stuck hexit]
          rfl
      | true =>
          rw [runs_of_loop hf.closed hG hf.exit hf.first_mem hf.last_mem hlast hback hexit,
            hf.language]
          rfl
    cases skips with
    | false =>
        rw [runs_of_epsilon_one hentry hne, hbody, if_neg Bool.false_ne_true, zero_add]
    | true =>
        rw [runs_of_epsilon_two hentry hne, hbody, runs_self_of_stuck hexit, add_comm, if_pos rfl]

/-! ## §6. The ends of a line. -/

/-- **A node before a fragment** that consumes something. -/
theorem consumeBefore {first : Nat} {e : Edge} (hf : f.Spans G S L) (he : e ≠ .epsilon)
    (hin : e.InAlphabet) (hfirst : first ∉ S) (hentry : G'.At first e (some f.first) none)
    (hG : ∀ i ∈ S, G' i = G i) :
    Spans ⟨first, f.last⟩ G' ({first} ∪ S) (oneSymbol e.symbols * L) := by
  have hf' := hf.congr hG
  refine ⟨.inl rfl, .inr hf.last_mem, (ne_of_mem_of_not_mem hf.last_mem hfirst).symm, hf'.exit,
    ?_, ?_, ?_⟩
  · intro i hi
    rcases hi with hi | hi
    · rw [Set.mem_singleton_iff] at hi
      subst hi
      exact inside_of_next_only hentry (.inr hf.first_mem)
        (ne_of_mem_of_not_mem hf.first_mem hfirst)
    · by_cases hi' : i = f.last
      · subst hi'
        exact inside_of_exit hf'.exit
      · exact hf'.inside_of_subset hi hi' rfl (fun j hj => .inr hj) hfirst
  · intro i hi
    rcases hi with hi | hi
    · rw [Set.mem_singleton_iff] at hi
      subst hi
      exact (hentry.onward hin).trans (hf'.onward _ hf.first_mem)
    · exact hf'.onward i hi
  · rw [runs_of_consuming hentry he (ne_of_mem_of_not_mem hf.last_mem hfirst).symm, hf'.language]

/-- **A node behind a fragment** that is entered by consuming something. -/
theorem consumeBehind {last : Nat} {e : Edge} (hf : f.Spans G S L) (he : e ≠ .epsilon)
    (hin : e.InAlphabet) (hlast : last ∉ S) (hback : G'.At f.last e (some last) none)
    (hexit : G'.At last .epsilon none none) (hG : ∀ i ∈ S, i ≠ f.last → G' i = G i) :
    Spans ⟨f.first, last⟩ G' (S ∪ {last}) (L * oneSymbol e.symbols) := by
  have hne : f.first ≠ last := ne_of_mem_of_not_mem hf.first_mem hlast
  refine ⟨.inl hf.first_mem, .inr rfl, hne, hexit, ?_, ?_, ?_⟩
  · intro i hi
    rcases hi with hi | hi
    · by_cases hi' : i = f.last
      · subst hi'
        exact inside_of_next_only hback (.inr rfl) hne.symm
      · obtain ⟨e', next, other, hat, hrefs, hnext⟩ := hf.inside i hi
        refine ⟨e', next, other, hat.congr (hG i hi hi'), ?_, fun _ => hnext hi'⟩
        intro j hj
        exact ⟨.inl (hrefs j hj).1, (hrefs j hj).2⟩
    · rw [Set.mem_singleton_iff] at hi
      subst hi
      exact inside_of_exit hexit
  · intro i hi
    rcases hi with hi | hi
    · exact (hf.onward_last hG hi).trans (hback.onward hin)
    · rw [Set.mem_singleton_iff] at hi
      subst hi
      exact .refl _
  · rw [hf.runs_first hG hlast,
      runs_of_consuming hback he (ne_of_mem_of_not_mem hf.last_mem hlast),
      runs_self_of_stuck hexit, mul_one]

end Spans

end Fragment

end LineScan
