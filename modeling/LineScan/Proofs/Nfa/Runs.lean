/-
  LineScan.Proofs.Nfa.Runs
  ────────────────────────
  **THE LANGUAGE BETWEEN TWO NODES.**

  `runs G i t` holds the words of all runs from `i` to `t`.  It is computed
  node by node: an epsilon node adds up what its references have, a node that
  consumes something puts its symbols in front.

  Part of a graph that can only be left through one node, its exit, is a
  factor: every run from inside to outside splits at the exit
  (`exists_split_of_exit`), and what happens behind the exit is of no concern
  to the part before it (`Path.until_exit`).
-/
import LineScan.Proofs.Nfa.Path
import LineScan.Proofs.Pattern.Language

namespace LineScan

open Computability

variable {Ref : Type} {G G' : Graph Ref} {i j t : Ref} {e : Edge} {next other : Option Ref}
  {w : Word}

/-- The words of the runs between two nodes. -/
def runs (G : Graph Ref) (i t : Ref) : Language UInt8 := {w | Path G i w t}

theorem mem_runs : w ∈ runs G i t ↔ Path G i w t := Iff.rfl

/-! ## §1. Node by node. -/

theorem runs_self_of_stuck (hi : G.At i e none none) : runs G i i = 1 := by
  ext w
  rw [mem_runs, Language.mem_one]
  constructor
  · intro h
    exact (Path.eq_of_stuck hi h).2
  · intro h
    subst h
    exact .nil i

/-- A run from an epsilon node to another node goes on at one of its
references. -/
theorem mem_runs_of_epsilon (hi : G.At i .epsilon next other) (hne : i ≠ t) :
    w ∈ runs G i t ↔ ∃ j, (next = some j ∨ other = some j) ∧ w ∈ runs G j t := by
  obtain ⟨n, hn, he, hnext, hother⟩ := hi
  subst hnext hother
  constructor
  · intro h
    cases h with
    | nil => exact absurd rfl hne
    | epsilon hm hj hp =>
        rw [hn] at hm
        cases hm
        exact ⟨_, Node.mem_refs.1 (Node.mem_epsilonTargets.1 hj).2, hp⟩
    | byte hm _ hj _ =>
        rw [hn] at hm
        cases hm
        rw [Node.byteTarget?_eq_some, he] at hj
        cases hj.1
  · intro h
    obtain ⟨j, hj, hp⟩ := h
    exact .epsilon hn (Node.mem_epsilonTargets.2 ⟨he, Node.mem_refs.2 hj⟩) hp

theorem runs_of_epsilon_one (hi : G.At i .epsilon (some j) none) (hne : i ≠ t) :
    runs G i t = runs G j t := by
  ext w
  rw [mem_runs_of_epsilon hi hne]
  simp

theorem runs_of_epsilon_two {j' : Ref} (hi : G.At i .epsilon (some j) (some j')) (hne : i ≠ t) :
    runs G i t = runs G j t + runs G j' t := by
  ext w
  rw [mem_runs_of_epsilon hi hne, Language.mem_add]
  constructor
  · intro h
    obtain ⟨k, hk, hw⟩ := h
    rcases hk with hk | hk
    · cases hk
      exact .inl hw
    · cases hk
      exact .inr hw
  · intro h
    rcases h with hw | hw
    · exact ⟨j, .inl rfl, hw⟩
    · exact ⟨j', .inr rfl, hw⟩

/-- A run from a node that consumes something consumes it first. -/
theorem runs_of_consuming (hi : G.At i e (some j) other) (he : e ≠ .epsilon) (hne : i ≠ t) :
    runs G i t = oneSymbol e.symbols * runs G j t := by
  obtain ⟨n, hn, hedge, hnext, _⟩ := hi
  subst hedge
  ext w
  rw [Language.mem_mul]
  constructor
  · intro h
    cases h with
    | nil => exact absurd rfl hne
    | epsilon hm hj _ =>
        rw [hn] at hm
        cases hm
        exact absurd (Node.mem_epsilonTargets.1 hj).1 he
    | @byte _ k _ _ b v hm hb hj hp =>
        rw [hn] at hm
        cases hm
        rw [Node.byteTarget?_eq_some, hnext] at hj
        have hk : j = k := Option.some.inj hj.2
        subst hk
        -- the byte is the symbol of its number
        have hsym : b = Symbol.toByte ⟨b.toNat, hb⟩ :=
          Symbol.ofByte?_eq_some_iff.1 (by rw [Symbol.ofByte?, dif_pos hb])
        refine ⟨[b], ⟨⟨b.toNat, hb⟩, ?_, by rw [← hsym]⟩, v, hp, rfl⟩
        show n.edge.admits (Symbol.toByte ⟨b.toNat, hb⟩) = true
        rw [← hsym]
        exact hj.1
  · intro h
    obtain ⟨u, ⟨a, ha, hu⟩, v, hv, huv⟩ := h
    subst hu huv
    have hlt : a.toByte.toNat < alphabetSize := by
      rw [Symbol.toNat_toByte]
      exact a.isLt
    exact .byte hn hlt (Node.byteTarget?_eq_some.2 ⟨ha, hnext⟩) hv

/-- No run leads on from a node that consumes something but has no first
reference. -/
theorem runs_of_blocked (hi : G.At i e none other) (he : e ≠ .epsilon) (hne : i ≠ t) :
    runs G i t = 0 := by
  obtain ⟨n, hn, hedge, hnext, _⟩ := hi
  ext w
  constructor
  · intro h
    cases h with
    | nil => exact absurd rfl hne
    | epsilon hm hj _ =>
        rw [hn] at hm
        cases hm
        exact absurd (hedge ▸ (Node.mem_epsilonTargets.1 hj).1) he
    | byte hm _ hj _ =>
        rw [hn] at hm
        cases hm
        rw [Node.byteTarget?_eq_some, hnext] at hj
        cases hj.2
  · intro h
    exact absurd h (Language.notMem_zero w)

/-- Two nodes that do the same run alike when their references run alike. -/
theorem runs_eq_of_at {i' : Ref} (hi : G.At i e next other) (hi' : G'.At i' e next other)
    (hne : i ≠ t) (hne' : i' ≠ t)
    (href : ∀ j, next = some j ∨ other = some j → runs G' j t = runs G j t) :
    runs G' i' t = runs G i t := by
  by_cases he : e = .epsilon
  · subst he
    ext w
    rw [mem_runs_of_epsilon hi hne, mem_runs_of_epsilon hi' hne']
    constructor
    · intro h
      obtain ⟨j, hj, hw⟩ := h
      exact ⟨j, hj, href j hj ▸ hw⟩
    · intro h
      obtain ⟨j, hj, hw⟩ := h
      exact ⟨j, hj, (href j hj).symm ▸ hw⟩
  · cases next with
    | none => rw [runs_of_blocked hi he hne, runs_of_blocked hi' he hne']
    | some j =>
        rw [runs_of_consuming hi he hne, runs_of_consuming hi' he hne', href j (.inl rfl)]

/-! ## §2. Parts with one exit. -/

variable {S : Set Ref} {exit : Ref}

/-- A run from inside a closed set to outside it in a graph that differs only
at the exit passes through the exit. -/
theorem exists_split_of_exit (hS : G.Closed S) (hG : ∀ i ∈ S, i ≠ exit → G' i = G i)
    (hi : i ∈ S) (ht : t ∉ S) (h : Path G' i w t) :
    ∃ u v, Path G i u exit ∧ Path G' exit v t ∧ u ++ v = w := by
  -- cut at the first visit to the exit: until then both graphs agree
  induction h with
  | nil => exact absurd hi ht
  | @epsilon i j t n w hn hj hp ih =>
      by_cases he : i = exit
      · subst he
        exact ⟨[], w, .nil i, .epsilon hn hj hp, rfl⟩
      · rw [hG i hi he] at hn
        obtain ⟨u, v, hu, hv, huv⟩ := ih (hS i hi n hn j (Node.mem_epsilonTargets.1 hj).2) ht
        exact ⟨u, v, .epsilon hn hj hu, hv, huv⟩
  | @byte i j t n b w hn hb hj hp ih =>
      by_cases he : i = exit
      · subst he
        exact ⟨[], b :: w, .nil i, .byte hn hb hj hp, rfl⟩
      · rw [hG i hi he] at hn
        obtain ⟨u, v, hu, hv, huv⟩ := ih (hS i hi n hn j (Node.mem_refs_of_byteTarget hj)) ht
        exact ⟨b :: u, v, .byte hn hb hj hu, hv, by rw [← huv]; rfl⟩

/-- A run up to an exit without references does not depend on the exit. -/
theorem Path.until_exit (hS : G.Closed S) (hG : ∀ i ∈ S, i ≠ exit → G' i = G i)
    (hexit : G.At exit e none none) (hi : i ∈ S) (h : Path G i w exit) : Path G' i w exit := by
  induction h with
  | nil => exact .nil _
  | @epsilon i j x m w hm hj hp ih =>
      by_cases hx : i = x
      · -- a run that begins at the exit stays there
        subst hx
        rw [(eq_of_stuck hexit (.epsilon hm hj hp)).2]
        exact .nil i
      · exact .epsilon ((hG i hi hx).trans hm) hj
          (ih hG hexit (hS i hi m hm j (Node.mem_epsilonTargets.1 hj).2))
  | @byte i j x m b w hm hb hj hp ih =>
      by_cases hx : i = x
      · subst hx
        rw [(eq_of_stuck hexit (.byte hm hb hj hp)).2]
        exact .nil i
      · exact .byte ((hG i hi hx).trans hm) hb hj
          (ih hG hexit (hS i hi m hm j (Node.mem_refs_of_byteTarget hj)))

/-- **A part with one exit is a factor** of the language between its nodes
and the outside. -/
theorem runs_through_exit (hS : G.Closed S) (hG : ∀ i ∈ S, i ≠ exit → G' i = G i)
    (hexit : G.At exit e none none) (hi : i ∈ S) (ht : t ∉ S) :
    runs G' i t = runs G i exit * runs G' exit t := by
  ext w
  rw [Language.mem_mul]
  constructor
  · intro h
    obtain ⟨u, v, hu, hv, huv⟩ := exists_split_of_exit hS hG hi ht h
    exact ⟨u, hu, v, hv, huv⟩
  · intro h
    obtain ⟨u, hu, v, hv, huv⟩ := h
    rw [← huv]
    exact (Path.until_exit hS hG hexit hi hu).append hv

/-! ## §3. Parts that are passed again and again. -/

theorem append_mem_kstar {L : Language UInt8} {u v : Word} (hu : u ∈ L) (hv : v ∈ L∗) :
    u ++ v ∈ L∗ := by
  rw [← Language.one_add_self_mul_kstar_eq_kstar, Language.mem_add]
  exact .inr (Language.append_mem_mul hu hv)

/-- A run from inside a part whose exit leads back to its entrance finishes
its round and then makes any number of further rounds. -/
theorem exists_rounds_of_loop {entrance : Ref} (hS : G.Closed S)
    (hG : ∀ i ∈ S, i ≠ exit → G' i = G i) (hentrance : entrance ∈ S) (ht : t ∉ S)
    (hloop : G'.At exit .epsilon (some t) (some entrance)) (hout : G'.At t e none none)
    (hi : i ∈ S) (h : Path G' i w t) :
    ∃ u v, u ++ v = w ∧ Path G i u exit ∧ v ∈ (runs G entrance exit)∗ := by
  induction h with
  | nil => exact absurd hi ht
  | @epsilon i j t l w hl hj hp ih =>
      by_cases he : i = exit
      · subst he
        obtain ⟨m, hm, _, hnext, hother⟩ := hloop
        rw [hl] at hm
        cases hm
        have hj' := Node.mem_refs.1 (Node.mem_epsilonTargets.1 hj).2
        rw [hnext, hother] at hj'
        rcases hj' with hj' | hj'
        · -- the run leaves, and goes nowhere from there
          cases hj'
          exact ⟨[], w, rfl, .nil i,
            (Path.eq_of_stuck hout hp).2 ▸ Language.nil_mem_kstar _⟩
        · -- the run goes back: what follows is a round and further rounds
          cases hj'
          obtain ⟨u, v, huv, hu, hv⟩ := ih ht ⟨l, hl, ‹_›, hnext, hother⟩ hout hentrance
          exact ⟨[], w, rfl, .nil i, huv ▸ append_mem_kstar hu hv⟩
      · rw [hG i hi he] at hl
        obtain ⟨u, v, huv, hu, hv⟩ := ih ht hloop hout
          (hS i hi l hl j (Node.mem_epsilonTargets.1 hj).2)
        exact ⟨u, v, huv, .epsilon hl hj hu, hv⟩
  | @byte i j t l b w hl hb hj hp ih =>
      by_cases he : i = exit
      · -- the exit consumes nothing
        subst he
        obtain ⟨m, hm, hedge, _, _⟩ := hloop
        rw [hl] at hm
        cases hm
        rw [Node.byteTarget?_eq_some, hedge] at hj
        cases hj.1
      · rw [hG i hi he] at hl
        obtain ⟨u, v, huv, hu, hv⟩ := ih ht hloop hout
          (hS i hi l hl j (Node.mem_refs_of_byteTarget hj))
        exact ⟨b :: u, v, by rw [← huv]; rfl, .byte hl hb hj hu, hv⟩

/-- **A part whose exit leads back to its entrance** is left after any number
of rounds. -/
theorem runs_of_loop {entrance : Ref} {e' : Edge} (hS : G.Closed S)
    (hG : ∀ i ∈ S, i ≠ exit → G' i = G i) (hexit : G.At exit e none none)
    (hentrance : entrance ∈ S) (hmem : exit ∈ S) (ht : t ∉ S)
    (hloop : G'.At exit .epsilon (some t) (some entrance)) (hout : G'.At t e' none none) :
    runs G' exit t = (runs G entrance exit)∗ := by
  have hne : exit ≠ t := fun h => ht (h ▸ hmem)
  have hsplit : runs G' exit t = 1 + runs G' entrance t := by
    rw [runs_of_epsilon_two hloop hne, runs_self_of_stuck hout]
  ext w
  constructor
  · intro h
    -- a run that begins at the exit has no round to finish
    obtain ⟨u, v, huv, hu, hv⟩ := exists_rounds_of_loop hS hG hentrance ht hloop hout hmem h
    rw [(Path.eq_of_stuck hexit hu).2] at huv
    exact huv ▸ hv
  · intro h
    obtain ⟨ws, hw, hws⟩ := Language.mem_kstar.1 h
    subst hw
    clear h
    -- the induction is on the rounds
    induction ws with
    | nil =>
        rw [hsplit, Language.mem_add]
        exact .inl rfl
    | cons v ws ih =>
        rw [hsplit, Language.mem_add, List.flatten_cons]
        have hv : Path G entrance v exit := hws v List.mem_cons_self
        have hrest := ih fun y hy => hws y (List.mem_cons_of_mem _ hy)
        exact .inr ((Path.until_exit hS hG hexit hentrance hv).append hrest)

/-! ## §4. Runs that may stop. -/

/-- The words of the runs from a node to some terminal node. -/
def accepted (G : Graph Ref) (i : Ref) : Language UInt8 :=
  {w | ∃ t n, Path G i w t ∧ G t = some n ∧ n.isTerminal = true}

theorem accepted_of_epsilon (hi : G.At i .epsilon (some j) other) :
    w ∈ accepted G i ↔ ∃ k, (some j = some k ∨ other = some k) ∧ w ∈ accepted G k := by
  -- the node has a first reference, so no run may stop at it
  have hgo : ∀ t n, G t = some n → n.isTerminal = true → i ≠ t := by
    intro t n hn hterm h
    subst h
    obtain ⟨m, hm, _, hnext, _⟩ := hi
    rw [hn] at hm
    cases hm
    rw [Node.isTerminal, hnext] at hterm
    cases hterm
  constructor
  · intro h
    obtain ⟨t, n, hp, hn, hterm⟩ := h
    obtain ⟨k, hk, hp'⟩ := (mem_runs_of_epsilon hi (hgo t n hn hterm)).1 hp
    exact ⟨k, hk, t, n, hp', hn, hterm⟩
  · intro h
    obtain ⟨k, hk, t, n, hp, hn, hterm⟩ := h
    exact ⟨t, n, (mem_runs_of_epsilon hi (hgo t n hn hterm)).2 ⟨k, hk, hp⟩, hn, hterm⟩

theorem accepted_of_epsilon_one (hi : G.At i .epsilon (some j) none) :
    accepted G i = accepted G j := by
  ext w
  rw [accepted_of_epsilon hi]
  simp

theorem accepted_of_epsilon_two {j' : Ref} (hi : G.At i .epsilon (some j) (some j')) :
    accepted G i = accepted G j + accepted G j' := by
  ext w
  rw [accepted_of_epsilon hi, Language.mem_add]
  constructor
  · intro h
    obtain ⟨k, hk, hw⟩ := h
    rcases hk with hk | hk
    · cases hk
      exact .inl hw
    · cases hk
      exact .inr hw
  · intro h
    rcases h with hw | hw
    · exact ⟨j, .inl rfl, hw⟩
    · exact ⟨j', .inr rfl, hw⟩

end LineScan
