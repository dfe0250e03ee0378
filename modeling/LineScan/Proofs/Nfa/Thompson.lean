/-
  LineScan.Proofs.Nfa.Thompson
  ────────────────────────────
  **BUILDING AN EXPRESSION GIVES A FRAGMENT WITH ITS LANGUAGE.**

  `f.BuiltOn a a' S L`: going from the arena `a` to the arena `a'`, the slots
  of `S`, which held no node before, have become a fragment with the language
  `L`, and no other slot has changed.  Slots that a sibling has freed may be
  in `S`, so nothing more is said about them than that they were empty.

  Each construct keeps that statement, and the shape of a fragment besides.
  Hence every expression satisfies both (`Regex.exists_build_shape`), and so
  does every rule.  Building never fails.
-/
import LineScan.Proofs.Nfa.Shape

namespace LineScan

open Computability

/-! ## §1. What has been built. -/

/-- **Some empty slots have become a fragment**, and nothing else has
changed. -/
structure Fragment.BuiltOn (f : Fragment) (a a' : Arena) (S : Set Nat) (L : Language UInt8) :
    Prop where
  /-- The arena is in order. -/
  consistent : a'.Consistent
  /-- The slots were empty. -/
  unused : ∀ i ∈ S, a.graph i = none
  /-- The other slots are as they were. -/
  frame : ∀ i, i ∉ S → a'.graph i = a.graph i
  /-- The slots form a fragment. -/
  spans : f.Spans a'.graph S L

namespace Fragment.BuiltOn

variable {f g : Fragment} {a a' a'' : Arena} {S T : Set Nat} {L M : Language UInt8} {i : Nat}

/-- What is empty now was empty before. -/
theorem none_of_none (hf : f.BuiltOn a a' S L) (h : a'.graph i = none) : a.graph i = none := by
  rw [← hf.frame i (hf.spans.not_mem_of_none h), h]

/-- Fragments built one after the other share no slot. -/
theorem disjoint (hf : f.BuiltOn a a' S L) (hg : g.BuiltOn a' a'' T M) : ∀ i ∈ S, i ∉ T := by
  intro i hi hi'
  exact hf.spans.not_mem_of_none (hg.unused i hi') hi

theorem graph_last (hf : f.BuiltOn a a' S L) :
    ∃ n, a'.graph f.last = some n ∧ n.edge = .epsilon ∧ n.next = none ∧ n.other = none :=
  hf.spans.exit

/-- The first fragment is still there when the second one has been built. -/
theorem spans_after (hf : f.BuiltOn a a' S L) (hg : g.BuiltOn a' a'' T M) :
    f.Spans a''.graph S L := by
  apply hf.spans.congr
  intro i hi
  exact hg.frame i (hf.disjoint hg i hi)

theorem shape_after {anchor : Anchor} (hf : f.BuiltOn a a' S L) (hg : g.BuiltOn a' a'' T M)
    (hs : f.Shape a'.graph S anchor) : f.Shape a''.graph S anchor := by
  apply hs.congr hf.spans
  intro i hi
  exact hg.frame i (hf.disjoint hg i hi)

end Fragment.BuiltOn

/-! ## §2. Constructs. -/

namespace Fragment.BuiltOn

variable {f g h : Fragment} {a a' a'' b : Arena} {S T : Set Nat} {L M : Language UInt8}

theorem lays {e : Edge} (h : f.Lays e a.graph b.graph) (hb : b.Consistent) (he : e ≠ .epsilon)
    (hin : e.InAlphabet) : f.BuiltOn a b {f.first, f.last} (oneSymbol e.symbols) := by
  refine ⟨hb, ?_, ?_, ?_⟩
  · intro k hk
    rcases hk with hk | hk
    · rw [hk, h.first_unused]
    · rw [hk, h.last_unused]
  · intro k hk
    rw [Set.mem_insert_iff, Set.mem_singleton_iff, not_or] at hk
    exact h.rest k hk.1 hk.2
  · exact .edge h.first_ne_last he hin ⟨_, h.entry, rfl, rfl, rfl⟩ ⟨_, h.exit, rfl, rfl, rfl⟩

/-- The exit of the first fragment and the entrance of the second one are
different slots, so no node is merged into itself. -/
theorem last_ne_first (hf : f.BuiltOn a a' S L) (hg : g.BuiltOn a' a'' T M) : f.last ≠ g.first :=
  fun h => hf.disjoint hg _ hf.spans.last_mem (h ▸ hg.spans.first_mem)

theorem last_ne_last (hf : f.BuiltOn a a' S L) (hg : g.BuiltOn a' a'' T M) : f.last ≠ g.last :=
  fun h => hf.disjoint hg _ hf.spans.last_mem (h ▸ hg.spans.last_mem)

/-- Splicing joins two fragments. -/
theorem splice (hf : f.BuiltOn a a' S L) (hg : g.BuiltOn a' a'' T M)
    (h : f.Splices g a''.graph b.graph) (hb : b.Consistent) :
    Fragment.BuiltOn ⟨f.first, g.last⟩ a b ((S ∪ T) \ {g.first}) (L * M) := by
  have hf' := hf.spans_after hg
  obtain ⟨n, hn⟩ := hg.spans.live hg.spans.first_mem
  obtain ⟨t, ht, _⟩ := hf'.exit
  refine ⟨hb, ?_, ?_, ?_⟩
  · intro i hi
    rcases hi.1 with hi' | hi'
    · exact hf.unused i hi'
    · exact hf.none_of_none (hg.unused i hi')
  · intro i hi
    by_cases hi' : i = g.first
    · -- the slot that the splice has freed was empty before
      rw [hi', h.freed, hf.none_of_none (hg.unused _ hg.spans.first_mem)]
    · have hiS : i ∉ S := fun h => hi ⟨.inl h, hi'⟩
      have hiT : i ∉ T := fun h => hi ⟨.inr h, hi'⟩
      rw [h.rest i (fun h => hiS (h ▸ hf.spans.last_mem)) hi', hg.frame i hiT, hf.frame i hiS]
  · exact hf'.cat hg.spans (hf.disjoint hg) ⟨n, hn, rfl, rfl, rfl⟩
      ⟨_, h.moved n t hn ht, rfl, rfl, rfl⟩ fun i _ => h.rest i

/-- A new entrance and a new exit around a fragment. -/
theorem enclose {skips repeats : Bool} (hf : f.BuiltOn a a' S L)
    (h : g.Encloses f skips repeats a'.graph b.graph) (hb : b.Consistent) :
    g.BuiltOn a b ({g.first, g.last} ∪ S)
      ((if skips then 1 else 0) + L * (if repeats then L∗ else 1)) := by
  -- the two slots were empty, so the fragment does not hold them
  have hfirst := hf.spans.not_mem_of_none h.first_unused
  have hlast := hf.spans.not_mem_of_none h.last_unused
  obtain ⟨l, hl, hledge, _, hlother⟩ := hf.graph_last
  refine ⟨hb, ?_, ?_, ?_⟩
  · intro k hk
    rcases hk with (hk | hk) | hk
    · rw [hk, hf.none_of_none h.first_unused]
    · rw [hk, hf.none_of_none h.last_unused]
    · exact hf.unused k hk
  · intro k hk
    have hkS : k ∉ S := fun h => hk (.inr h)
    rw [h.rest k (fun h => hkS (h ▸ hf.spans.last_mem)) (fun h => hk (.inl (.inl h)))
      (fun h => hk (.inl (.inr h))), hf.frame k hkS]
  · refine hf.spans.enclose hfirst hlast h.first_ne_last ⟨_, h.entry, rfl, rfl, rfl⟩
      ⟨_, h.back l hl, hledge, rfl, ?_⟩ ⟨_, h.exit, rfl, rfl, rfl⟩ ?_
    · rw [hlother]
    · intro k hk hne
      exact h.rest k hne (ne_of_mem_of_not_mem hk hfirst) (ne_of_mem_of_not_mem hk hlast)

/-- A fork before two fragments and a join behind them. -/
theorem join (hf : f.BuiltOn a a' S L) (hg : g.BuiltOn a' a'' T M)
    (hj : h.Joins f g a''.graph b.graph) (hb : b.Consistent) :
    h.BuiltOn a b ({h.first, h.last} ∪ (S ∪ T)) (L + M) := by
  have hf' := hf.spans_after hg
  -- the two slots were empty, so they are none of those that hold the fragments
  have hfirstT := hg.spans.not_mem_of_none hj.first_unused
  have hfirstS := hf'.not_mem_of_none hj.first_unused
  have hlastT := hg.spans.not_mem_of_none hj.last_unused
  have hlastS := hf'.not_mem_of_none hj.last_unused
  obtain ⟨l, hl, hledge, _, hlother⟩ := hf'.exit
  obtain ⟨r, hr, hredge, _, hrother⟩ := hg.graph_last
  refine ⟨hb, ?_, ?_, ?_⟩
  · intro k hk
    rcases hk with (hk | hk) | hk | hk
    · rw [hk, hf.none_of_none (hg.none_of_none hj.first_unused)]
    · rw [hk, hf.none_of_none (hg.none_of_none hj.last_unused)]
    · exact hf.unused k hk
    · exact hf.none_of_none (hg.unused k hk)
  · intro k hk
    have hkS : k ∉ S := fun h => hk (.inr (.inl h))
    have hkT : k ∉ T := fun h => hk (.inr (.inr h))
    rw [hj.rest k (fun h => hkS (h ▸ hf'.last_mem)) (fun h => hkT (h ▸ hg.spans.last_mem))
      (fun h => hk (.inl (.inl h))) (fun h => hk (.inl (.inr h))), hg.frame k hkT,
      hf.frame k hkS]
  · refine hf'.either hg.spans (hf.disjoint hg) hfirstS hfirstT hlastS hlastT hj.first_ne_last
      ⟨_, hj.entry, rfl, rfl, rfl⟩ ⟨_, hj.exit, rfl, rfl, rfl⟩
      ⟨_, hj.left l hl, hledge, rfl, hlother⟩ ⟨_, hj.right r hr, hredge, rfl, hrother⟩ ?_
    intro k hk hkf hkg
    rcases hk with hk | hk
    · exact hj.rest k hkf hkg (ne_of_mem_of_not_mem hk hfirstS) (ne_of_mem_of_not_mem hk hlastS)
    · exact hj.rest k hkf hkg (ne_of_mem_of_not_mem hk hfirstT) (ne_of_mem_of_not_mem hk hlastT)

end Fragment.BuiltOn

/-! ## §3. Expressions. -/

/-- An edge is built as a fragment. -/
theorem Edge.exists_build {e : Edge} (he : e ≠ .epsilon) (hin : e.InAlphabet) {a : Arena}
    (ha : a.Consistent) :
    ∃ f a' S, e.build a = .ok (f, a') ∧ f.BuiltOn a a' S (oneSymbol e.symbols) ∧
      f.Shape a'.graph S Anchor.none := by
  obtain ⟨f, a', h, hc, hlays⟩ := e.exists_lays ha
  exact ⟨f, a', _, h, .lays hlays hc he hin, .lays hlays⟩

/-- Enclosing keeps what has been built. -/
theorem Fragment.BuiltOn.exists_enclose {f : Fragment} {a a' : Arena} {S : Set Nat}
    {L : Language UInt8} (hf : f.BuiltOn a a' S L) (hs : f.Shape a'.graph S Anchor.none)
    (skips repeats : Bool) :
    ∃ g b U, f.enclose skips repeats a' = .ok (g, b) ∧
      g.BuiltOn a b U ((if skips then 1 else 0) + L * (if repeats then L∗ else 1)) ∧
      g.Shape b.graph U Anchor.none := by
  obtain ⟨l, hl, _⟩ := hf.graph_last
  obtain ⟨g, b, h, hb, hencloses⟩ := Fragment.exists_encloses hf.consistent hl skips repeats
  exact ⟨g, b, _, h, hf.enclose hencloses hb, hs.enclose hf.spans hencloses⟩

/-- **Building an expression** succeeds and gives a fragment with the language
of the expression, whose exit carries no anchor. -/
theorem Regex.exists_build_shape (r : Regex) {a : Arena} (ha : a.Consistent) :
    ∃ f a' S, r.build a = .ok (f, a') ∧ f.BuiltOn a a' S r.language ∧
      f.Shape a'.graph S Anchor.none := by
  -- each case builds on the arena that the one before has left
  induction r generalizing a with
  | symbol s =>
      obtain ⟨f, a', S, h, hf, hs⟩ :=
        Edge.exists_build (e := .byte s.toByte) (by simp) (Edge.inAlphabet_byte s) ha
      rw [Edge.symbols_byte] at hf
      exact ⟨f, a', S, h, hf, hs⟩
  | cls c => exact Edge.exists_build (e := .cls c) (by simp) (Edge.inAlphabet_cls c) ha
  | cat first second ih ih' =>
      obtain ⟨f, a₁, S, h₁, hf, hs⟩ := ih ha
      obtain ⟨g, a₂, T, h₂, hg, hs'⟩ := ih' hf.consistent
      have hf' := hf.spans_after hg
      obtain ⟨l, hl, _⟩ := hf'.exit
      obtain ⟨n, hn⟩ := hg.spans.live hg.spans.first_mem
      obtain ⟨a₃, h₃, hc₃, hsplices⟩ :=
        Fragment.exists_splices hg.consistent hl hn (hf.last_ne_first hg)
      refine ⟨_, a₃, _, ?_, hf.splice hg hsplices hc₃, ?_⟩
      · simp only [Regex.build, Store.splice, h₁, h₂, h₃, bind, Except.bind]
        rfl
      · exact (hf.shape_after hg hs).splice hf' hs' hg.spans (hf.disjoint hg) hsplices
  | alt left right ih ih' =>
      obtain ⟨f, a₁, S, h₁, hf, hs⟩ := ih ha
      obtain ⟨g, a₂, T, h₂, hg, hs'⟩ := ih' hf.consistent
      have hf' := hf.spans_after hg
      obtain ⟨l, hl, _⟩ := hf'.exit
      obtain ⟨r, hr, _⟩ := hg.graph_last
      obtain ⟨h, a₃, h₃, hc₃, hjoins⟩ :=
        Fragment.exists_joins hg.consistent hl hr (hf.last_ne_last hg)
      refine ⟨h, a₃, _, ?_, hf.join hg hjoins hc₃, ?_⟩
      · simp only [Regex.build, h₁, h₂, h₃, bind, Except.bind]
      · exact (hf.shape_after hg hs).join hf' hs' hg.spans (hf.disjoint hg) hjoins
  | star body ih =>
      obtain ⟨f, a₁, S, h₁, hf, hs⟩ := ih ha
      obtain ⟨g, a₂, U, h₂, hg, hs'⟩ := hf.exists_enclose hs true true
      refine ⟨g, a₂, U, ?_, ?_, hs'⟩
      · simp only [Regex.build, h₁, h₂, bind, Except.bind]
      · -- one round or more, or none
        rw [if_pos rfl, if_pos rfl, Language.one_add_self_mul_kstar_eq_kstar] at hg
        exact hg
  | plus body ih =>
      obtain ⟨f, a₁, S, h₁, hf, hs⟩ := ih ha
      obtain ⟨g, a₂, U, h₂, hg, hs'⟩ := hf.exists_enclose hs false true
      refine ⟨g, a₂, U, ?_, ?_, hs'⟩
      · simp only [Regex.build, h₁, h₂, bind, Except.bind]
      · rw [if_neg Bool.false_ne_true, if_pos rfl, zero_add] at hg
        exact hg
  | optional body ih =>
      obtain ⟨f, a₁, S, h₁, hf, hs⟩ := ih ha
      obtain ⟨g, a₂, U, h₂, hg, hs'⟩ := hf.exists_enclose hs true false
      refine ⟨g, a₂, U, ?_, ?_, hs'⟩
      · simp only [Regex.build, h₁, h₂, bind, Except.bind]
      · rw [if_pos rfl, if_neg Bool.false_ne_true, mul_one] at hg
        exact hg

/-- Building an expression succeeds and gives a fragment with the language of
the expression. -/
theorem Regex.exists_build (r : Regex) {a : Arena} (ha : a.Consistent) :
    ∃ f a' S, r.build a = .ok (f, a') ∧ f.BuiltOn a a' S r.language := by
  obtain ⟨f, a', S, h, hf, _⟩ := r.exists_build_shape ha
  exact ⟨f, a', S, h, hf⟩

end LineScan
