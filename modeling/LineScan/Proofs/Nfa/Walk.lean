/-
  LineScan.Proofs.Nfa.Walk
  ────────────────────────
  **WHERE REFERENCES LEAD.**

  `G.Leads i j` follows any references from `i` to `j`.  It is reachability in
  the drawing of a graph, whatever the edges ask for.  References do not lead
  out of a set of nodes that is closed under them.

  A walk leads somewhere by its first move and by its last one.  What is said
  here of the first or the last byte of a walk holds for bytes outside the
  alphabet too, since a complemented class admits them.
-/
import LineScan.Proofs.Nfa.Onward

namespace LineScan

variable {Ref : Type} {G G' : Graph Ref} {S : Set Ref} {i j k : Ref} {e : Edge}
  {next other : Option Ref}

/-! ## §1. References. -/

namespace Graph

/-- A node refers to another one. -/
def Refers (G : Graph Ref) (i j : Ref) : Prop := ∃ n, G i = some n ∧ j ∈ n.refs

/-- **References lead from a node to another one.** -/
def Leads (G : Graph Ref) (i j : Ref) : Prop := Relation.ReflTransGen G.Refers i j

theorem At.refers (h : G.At i e next other) (hj : next = some j ∨ other = some j) :
    G.Refers i j := by
  obtain ⟨n, hn, _, hnext, hother⟩ := h
  exact ⟨n, hn, Node.mem_refs.2 (hnext ▸ hother ▸ hj)⟩

theorem Closed.mem_of_refers (hS : G.Closed S) (hi : i ∈ S) (h : G.Refers i j) : j ∈ S := by
  obtain ⟨n, hn, hj⟩ := h
  exact hS i hi n hn j hj

/-- A node without references refers to nothing. -/
theorem At.not_refers (h : G.At i e none none) (j : Ref) : ¬ G.Refers i j := by
  obtain ⟨n, hn, _, hnext, hother⟩ := h
  rintro ⟨m, hm, hj⟩
  rw [hn] at hm
  cases hm
  rw [Node.mem_refs, hnext, hother] at hj
  rcases hj with hj | hj <;> cases hj

namespace Leads

theorem refl (i : Ref) : G.Leads i i := Relation.ReflTransGen.refl

theorem single (h : G.Refers i j) : G.Leads i j := Relation.ReflTransGen.single h

theorem trans (h : G.Leads i j) (h' : G.Leads j k) : G.Leads i k :=
  Relation.ReflTransGen.trans h h'

/-- What leads on inside a closed set leads on in any graph that has the
references of the set. -/
theorem transfer (hS : G.Closed S) (hrefers : ∀ i ∈ S, ∀ j, G.Refers i j → G'.Refers i j)
    (hi : i ∈ S) (h : G.Leads i j) : G'.Leads i j := by
  induction h using Relation.ReflTransGen.head_induction_on with
  | refl => exact refl j
  | head hstep _ ih =>
      have hmem := hS.mem_of_refers hi hstep
      exact .head (hrefers _ hi _ hstep) (ih hmem)

theorem congr (hS : G.Closed S) (hG : ∀ i ∈ S, G' i = G i) (hi : i ∈ S) (h : G.Leads i j) :
    G'.Leads i j := by
  refine h.transfer hS (fun k hk l hl => ?_) hi
  obtain ⟨n, hn, hrefs⟩ := hl
  exact ⟨n, (hG k hk).trans hn, hrefs⟩

/-- What leads on inside a part with one exit does not depend on the exit. -/
theorem until_exit {exit : Ref} (hS : G.Closed S) (hG : ∀ i ∈ S, i ≠ exit → G' i = G i)
    (hexit : G.At exit e none none) (hi : i ∈ S) (h : G.Leads i j) : G'.Leads i j := by
  refine h.transfer hS (fun k hk l hl => ?_) hi
  have hne : k ≠ exit := fun heq => hexit.not_refers l (heq ▸ hl)
  obtain ⟨n, hn, hrefs⟩ := hl
  exact ⟨n, (hG k hk hne).trans hn, hrefs⟩

end Leads

/-- First references are references. -/
theorem Onward.leads (h : G.Onward i j) : G.Leads i j := by
  induction h using Relation.ReflTransGen.head_induction_on with
  | refl => exact .refl j
  | head hstep _ ih =>
      obtain ⟨n, hn, hnext, _⟩ := hstep
      exact .head ⟨n, hn, Node.mem_refs.2 (.inl hnext)⟩ ih

end Graph

/-! ## §2. First and last moves. -/

namespace Walk

variable {n : Node Ref} {w : Word} {t : Ref}

/-- A walk from an epsilon node to another node goes on at one of its
references. -/
theorem exists_of_epsilon (h : Walk G i w t) (hi : G.At i .epsilon next other) (hne : i ≠ t) :
    ∃ j, (next = some j ∨ other = some j) ∧ Walk G j w t := by
  obtain ⟨n, hn, he, hnext, hother⟩ := hi
  subst hnext hother
  cases h with
  | nil => exact absurd rfl hne
  | epsilon hm hj hp =>
      rw [hn] at hm
      cases hm
      exact ⟨_, Node.mem_refs.1 (Node.mem_epsilonTargets.1 hj).2, hp⟩
  | byte hm hj _ =>
      rw [hn] at hm
      cases hm
      rw [Node.byteTarget?_eq_some, he] at hj
      cases hj.1

/-- A walk from a node that consumes something to another node begins with a
byte that the node admits. -/
theorem exists_first_byte (h : Walk G i w t) (hn : G i = some n) (he : n.edge ≠ .epsilon)
    (hne : i ≠ t) : ∃ b, w.head? = some b ∧ n.edge.admits b = true := by
  cases h with
  | nil => exact absurd rfl hne
  | epsilon hm hj _ =>
      rw [hn] at hm
      cases hm
      exact absurd (Node.mem_epsilonTargets.1 hj).1 he
  | byte hm hj _ =>
      rw [hn] at hm
      cases hm
      exact ⟨_, rfl, (Node.byteTarget?_eq_some.1 hj).1⟩

/-- A walk stays where it is, or has a last move: from a node that refers to
its end, and that lets the last byte pass unless it is an epsilon node. -/
theorem exists_last_move (h : Walk G i w t) :
    (i = t ∧ w = []) ∨ ∃ j n u, Walk G i u j ∧ G j = some n ∧ t ∈ n.refs ∧
      (n.edge ≠ .epsilon → ∃ b, w = u ++ [b] ∧ n.edge.admits b = true) := by
  induction h with
  | nil => exact .inl ⟨rfl, rfl⟩
  | @epsilon i j t n w hn hj hp ih =>
      obtain ⟨he, hrefs⟩ := Node.mem_epsilonTargets.1 hj
      rcases ih with ⟨rfl, rfl⟩ | ⟨k, m, u, hu, hm, ht, hb⟩
      · exact .inr ⟨i, n, [], .nil i, hn, hrefs, fun hne => absurd he hne⟩
      · exact .inr ⟨k, m, u, .epsilon hn hj hu, hm, ht, hb⟩
  | @byte i j t n b w hn hj hp ih =>
      rcases ih with ⟨rfl, rfl⟩ | ⟨k, m, u, hu, hm, ht, hb⟩
      · refine .inr ⟨i, n, [], .nil i, hn, Node.mem_refs_of_byteTarget hj, fun _ => ?_⟩
        exact ⟨b, rfl, (Node.byteTarget?_eq_some.1 hj).1⟩
      · refine .inr ⟨k, m, b :: u, .byte hn hj hu, hm, ht, fun he => ?_⟩
        obtain ⟨c, hc, hadmits⟩ := hb he
        exact ⟨c, by rw [hc]; rfl, hadmits⟩

end Walk

end LineScan
