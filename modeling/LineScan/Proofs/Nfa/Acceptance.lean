/-
  LineScan.Proofs.Nfa.Acceptance
  ──────────────────────────────
  **ACCEPTANCE, NODE BY NODE.**

  A `Trail` is what the drawing of an automaton shows: from an epsilon node
  along either reference, from any other node along the first one, on a byte
  that the edge admits.  It knows neither sets of nodes nor the alphabet.

  The simulation does know the alphabet: it gives up at the first byte outside
  it, even where a complemented class would admit that byte.  So the paths it
  follows are the trails over symbols (`path_iff_trail`), and

      accepts w  ↔  w holds symbols only, and some trail over w ends at a
                    node without a first reference

  whatever the references are: cycles of epsilon nodes, byte nodes that lead
  nowhere, and terminal nodes that still lead on are all allowed.
-/
import LineScan.Proofs.Nfa.Simulation

namespace LineScan

namespace Nfa

variable {nfa : Nfa} {i k : Fin nfa.size} {w : Word}

/-! ## §1. Trails. -/

/-- **A way through an automaton**, with the bytes it consumes. -/
inductive Trail (nfa : Nfa) : Fin nfa.size → Word → Fin nfa.size → Prop where
  /-- A way that stays where it is. -/
  | stay (i : Fin nfa.size) : Trail nfa i [] i
  /-- An epsilon node leads to either of its references. -/
  | silent {i j k : Fin nfa.size} {w : Word} :
      (nfa.node i).edge = .epsilon →
      (nfa.node i).next = some j ∨ (nfa.node i).other = some j →
      Trail nfa j w k → Trail nfa i w k
  /-- Any other node leads to its first reference, on a byte it admits. -/
  | consume {i j k : Fin nfa.size} {b : UInt8} {w : Word} :
      (nfa.node i).edge.admits b = true → (nfa.node i).next = some j →
      Trail nfa j w k → Trail nfa i (b :: w) k

/-! ## §2. Trails and paths. -/

/-- What runs along a path runs along a trail. -/
theorem trail_of_path (h : Path nfa.graph i w k) : nfa.Trail i w k := by
  induction h with
  | nil i => exact .stay i
  | epsilon hn hj _ ih =>
      cases hn
      obtain ⟨hedge, hrefs⟩ := Node.mem_epsilonTargets.1 hj
      exact .silent hedge (Node.mem_refs.1 hrefs) ih
  | byte hn _ hj _ ih =>
      cases hn
      obtain ⟨hedge, hnext⟩ := Node.byteTarget?_eq_some.1 hj
      exact .consume hedge hnext ih

/-- What runs along a trail runs along a path, if it consumes symbols. -/
theorem path_of_trail (h : nfa.Trail i w k) (hw : ∀ b ∈ w, b.toNat < alphabetSize) :
    Path nfa.graph i w k := by
  induction h with
  | stay i => exact .nil i
  | silent hedge hrefs _ ih =>
      exact .epsilon rfl (Node.mem_epsilonTargets.2 ⟨hedge, Node.mem_refs.2 hrefs⟩) (ih hw)
  | consume hedge hnext _ ih =>
      have hb := hw _ List.mem_cons_self
      have hrest := ih fun b hb => hw b (List.mem_cons_of_mem _ hb)
      exact .byte rfl hb (Node.byteTarget?_eq_some.2 ⟨hedge, hnext⟩) hrest

/-- **The paths are the trails over symbols.** -/
theorem path_iff_trail :
    Path nfa.graph i w k ↔ (∀ b ∈ w, b.toNat < alphabetSize) ∧ nfa.Trail i w k := by
  constructor
  · intro h
    exact ⟨h.toNat_lt, trail_of_path h⟩
  · rintro ⟨hw, h⟩
    exact path_of_trail h hw

/-! ## §3. Acceptance. -/

theorem isTerminal_iff : (nfa.node i).isTerminal = true ↔ (nfa.node i).next = none := by
  show (nfa.node i).next.isNone = true ↔ _
  rw [Option.isNone_iff_eq_none]

/-- **The simulation of sets accepts exactly what single trails spell**: a
word is accepted when all its bytes are symbols and a trail over it leads from
the start to a node without a first reference. -/
theorem accepts_iff_trail (nfa : Nfa) (w : Word) :
    nfa.accepts w = true ↔
      (∀ b ∈ w, b.toNat < alphabetSize) ∧
        ∃ t, nfa.Trail nfa.start w t ∧ (nfa.node t).next = none := by
  rw [accepts_iff_path]
  constructor
  · rintro ⟨t, hpath, hterminal⟩
    obtain ⟨hw, htrail⟩ := path_iff_trail.1 hpath
    exact ⟨hw, t, htrail, isTerminal_iff.1 hterminal⟩
  · rintro ⟨hw, t, htrail, hnext⟩
    exact ⟨t, path_iff_trail.2 ⟨hw, htrail⟩, isTerminal_iff.2 hnext⟩

end Nfa

end LineScan
