/-
  LineScan.Proofs.Nfa.Onward
  ──────────────────────────
  **FIRST REFERENCES LEAD ON.**

  Whatever is built around a node, its first reference leads forward: to the
  body of a construct, or to what comes behind it.  Ways back and ways past
  are second references.  `G.Onward i j` follows first references only, from
  `i` to `j`, over edges that do not ask for a byte outside the alphabet.

  Such a way can be run as soon as every class on it holds a symbol
  (`Graph.Onward.exists_path`).
-/
import LineScan.Proofs.Nfa.Path
import Mathlib.Logic.Relation

namespace LineScan

/-- The edge does not ask for a byte outside the alphabet. -/
def Edge.InAlphabet (e : Edge) : Prop := ∀ b, e = .byte b → b.toNat < alphabetSize

theorem Edge.inAlphabet_epsilon : Edge.epsilon.InAlphabet := fun _ h => by cases h

theorem Edge.inAlphabet_cls (c : CharClass) : (Edge.cls c).InAlphabet := fun _ h => by cases h

theorem Edge.inAlphabet_byte (a : Symbol) : (Edge.byte a.toByte).InAlphabet := by
  intro b h
  cases h
  rw [Symbol.toNat_toByte]
  exact a.isLt

namespace Graph

variable {Ref : Type} {G G' : Graph Ref} {S : Set Ref} {i j k : Ref} {e : Edge}
  {next other : Option Ref}

/-- The first reference of a node leads to another one. -/
def Step (G : Graph Ref) (i j : Ref) : Prop :=
  ∃ n, G i = some n ∧ n.next = some j ∧ n.edge.InAlphabet

/-- **First references lead from a node to another one.** -/
def Onward (G : Graph Ref) (i j : Ref) : Prop := Relation.ReflTransGen G.Step i j

theorem At.onward (h : G.At i e (some j) other) (he : e.InAlphabet) : G.Onward i j := by
  obtain ⟨n, hn, hedge, hnext, _⟩ := h
  exact .single ⟨n, hn, hnext, hedge ▸ he⟩

namespace Onward

theorem refl (i : Ref) : G.Onward i i := Relation.ReflTransGen.refl

theorem trans (h : G.Onward i j) (h' : G.Onward j k) : G.Onward i k :=
  Relation.ReflTransGen.trans h h'

/-- A way to another node has a first step. -/
theorem exists_step (h : G.Onward i k) (hne : i ≠ k) : ∃ j, G.Step i j ∧ G.Onward j k := by
  rcases Relation.ReflTransGen.cases_head h with heq | hstep
  · exact absurd heq hne
  · exact hstep

/-- A way up to an exit does not depend on the exit. -/
theorem until_exit {exit : Ref} (hS : G.Closed S) (hG : ∀ i ∈ S, i ≠ exit → G' i = G i)
    (hexit : G.At exit e none other) (hi : i ∈ S) (h : G.Onward i exit) : G'.Onward i exit := by
  induction h using Relation.ReflTransGen.head_induction_on with
  | refl => exact refl exit
  | @head i j hstep _ ih =>
      obtain ⟨n, hn, hnext, hedge⟩ := hstep
      -- no step leads on from the exit, so this one does not begin there
      have hne : i ≠ exit := by
        intro heq
        subst heq
        obtain ⟨m, hm, _, hnone, _⟩ := hexit
        rw [hn] at hm
        cases hm
        rw [hnone] at hnext
        cases hnext
      have hj : j ∈ S := hS i hi n hn j (Node.mem_refs.2 (.inl hnext))
      exact .head ⟨n, (hG i hi hne).trans hn, hnext, hedge⟩ (ih hj)

/-- A way inside a closed set only depends on the nodes of the set. -/
theorem congr (hS : G.Closed S) (hG : ∀ i ∈ S, G' i = G i) (hi : i ∈ S) (h : G.Onward i k) :
    G'.Onward i k := by
  induction h using Relation.ReflTransGen.head_induction_on with
  | refl => exact refl k
  | @head i j hstep _ ih =>
      obtain ⟨n, hn, hnext, hedge⟩ := hstep
      have hj : j ∈ S := hS i hi n hn j (Node.mem_refs.2 (.inl hnext))
      exact .head ⟨n, (hG i hi).trans hn, hnext, hedge⟩ (ih hj)

end Onward

/-! ## Running along a way. -/

/-- Every class on an edge of the graph holds a symbol. -/
def ClassesInhabited (G : Graph Ref) : Prop :=
  ∀ i n c, G i = some n → n.edge = .cls c → ∃ a : Symbol, c.admits a.toByte = true

theorem Step.exists_path (hG : G.ClassesInhabited) (h : G.Step i j) : ∃ w, Path G i w j := by
  obtain ⟨n, hn, hnext, hedge⟩ := h
  cases he : n.edge with
  | epsilon =>
      have hj : j ∈ n.epsilonTargets :=
        Node.mem_epsilonTargets.2 ⟨he, Node.mem_refs.2 (.inl hnext)⟩
      exact ⟨[], .epsilon hn hj (.nil j)⟩
  | byte b =>
      have hb : n.byteTarget? b = some j :=
        Node.byteTarget?_eq_some.2 ⟨by rw [he]; exact beq_self_eq_true b, hnext⟩
      exact ⟨[b], .byte hn (hedge b he) hb (.nil j)⟩
  | cls c =>
      obtain ⟨a, ha⟩ := hG i n c hn he
      have hlt : a.toByte.toNat < alphabetSize := by
        rw [Symbol.toNat_toByte]
        exact a.isLt
      have hb : n.byteTarget? a.toByte = some j :=
        Node.byteTarget?_eq_some.2 ⟨by rw [he]; exact ha, hnext⟩
      exact ⟨[a.toByte], .byte hn hlt hb (.nil j)⟩

/-- **A way can be run** when every class holds a symbol. -/
theorem Onward.exists_path (hG : G.ClassesInhabited) (h : G.Onward i j) :
    ∃ w, Path G i w j := by
  induction h using Relation.ReflTransGen.head_induction_on with
  | refl => exact ⟨[], .nil j⟩
  | head hstep _ ih =>
      obtain ⟨u, hu⟩ := hstep.exists_path hG
      obtain ⟨v, hv⟩ := ih
      exact ⟨u ++ v, hu.append hv⟩

/-- A way on to some terminal node. -/
def Halts (G : Graph Ref) (i : Ref) : Prop :=
  ∃ t n, G.Onward i t ∧ G t = some n ∧ n.isTerminal = true

end Graph

end LineScan
