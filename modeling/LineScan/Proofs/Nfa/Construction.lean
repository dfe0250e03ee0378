/-
  LineScan.Proofs.Nfa.Construction
  ────────────────────────────────
  **WHAT EACH CONSTRUCTION WRITES.**

      lays       two new nodes and an edge from the first to the second
      splices    the exit of a fragment takes over the entrance of another one
      encloses   a new entrance and a new exit around a fragment
      joins      a fork before two fragments and a join behind them
      precedes   a node before a fragment that consumes a line feed
      endsLine   a new exit behind a line end

  Each is stated for two graphs, one before and one after: which slots were
  empty, what the slots hold that were written to, and that the others hold
  what they held.  Nothing is said about languages here, nor about the shape
  of what is built; both are read off these effects.
-/
import LineScan.Nfa.Thompson
import LineScan.Proofs.Nfa.Arena

namespace LineScan

/-! ## §1. Effects. -/

namespace Fragment

/-- A new entrance and a new exit. -/
structure NewEnds (f : Fragment) (G G' : Graph Nat) : Prop where
  /-- The slot of the entrance was empty. -/
  first_unused : G f.first = none
  /-- The slot of the exit was empty. -/
  last_unused : G f.last = none
  /-- They are different slots. -/
  first_ne_last : f.first ≠ f.last
  /-- The exit is a fresh node. -/
  exit : G' f.last = some (Node.fresh f.last)

/-- An edge between two new nodes. -/
structure Lays (f : Fragment) (e : Edge) (G G' : Graph Nat) : Prop extends f.NewEnds G G' where
  /-- The edge is on the entrance. -/
  entry : G' f.first = some { Node.fresh f.first with next := some f.last, edge := e }
  /-- The other slots are as they were. -/
  rest : ∀ k, k ≠ f.first → k ≠ f.last → G' k = G k

/-- The exit of a fragment takes over the entrance of another one. -/
structure Splices (f g : Fragment) (G G' : Graph Nat) : Prop where
  /-- All but the number of the node moves. -/
  moved : ∀ n t, G g.first = some n → G f.last = some t →
    G' f.last = some { n with index := t.index }
  /-- Its slot is empty. -/
  freed : G' g.first = none
  /-- The other slots are as they were. -/
  rest : ∀ k, k ≠ f.last → k ≠ g.first → G' k = G k

/-- A new entrance and a new exit around a fragment. -/
structure Encloses (g f : Fragment) (skips repeats : Bool) (G G' : Graph Nat) : Prop
    extends g.NewEnds G G' where
  /-- The entrance leads into the fragment, and past it. -/
  entry : G' g.first = some { Node.fresh g.first with
    next := some f.first, other := if skips then some g.last else none }
  /-- The old exit leads to the new one, and back. -/
  back : ∀ l, G f.last = some l → G' f.last = some { l with
    next := some g.last, other := if repeats then some f.first else l.other }
  /-- The other slots are as they were. -/
  rest : ∀ k, k ≠ f.last → k ≠ g.first → k ≠ g.last → G' k = G k

/-- A fork before two fragments and a join behind them. -/
structure Joins (h f g : Fragment) (G G' : Graph Nat) : Prop extends h.NewEnds G G' where
  /-- The fork leads into both. -/
  entry : G' h.first = some { Node.fresh h.first with
    next := some f.first, other := some g.first }
  /-- The first exit leads to the join. -/
  left : ∀ l, G f.last = some l → G' f.last = some { l with next := some h.last }
  /-- So does the second one. -/
  right : ∀ r, G g.last = some r → G' g.last = some { r with next := some h.last }
  /-- The other slots are as they were. -/
  rest : ∀ k, k ≠ f.last → k ≠ g.last → k ≠ h.first → k ≠ h.last → G' k = G k

/-- A node before a fragment that consumes a line feed. -/
structure Precedes (i : Nat) (f : Fragment) (G G' : Graph Nat) : Prop where
  /-- The node leads into the fragment. -/
  entry : G' i = some { Node.fresh i with
    edge := .byte Symbol.lineFeed.toByte, next := some f.first }
  /-- The other slots are as they were. -/
  rest : ∀ k, k ≠ i → G' k = G k

/-- A new exit behind a line end. -/
structure EndsLine (g f : Fragment) (G G' : Graph Nat) : Prop where
  /-- The entrance is kept. -/
  first_eq : g.first = f.first
  /-- The slot of the new exit was empty. -/
  last_unused : G g.last = none
  /-- The new exit is a fresh node. -/
  exit : G' g.last = some (Node.fresh g.last)
  /-- The old exit consumes the line end. -/
  back : ∀ l, G f.last = some l → G' f.last = some { l with
    edge := .cls CharClass.lineEnd, next := some g.last }
  /-- The other slots are as they were. -/
  rest : ∀ k, k ≠ f.last → k ≠ g.last → G' k = G k

end Fragment

/-! ## §2. Steps. -/

namespace Arena

variable {a : Arena} {i : Nat} {n : Node Nat}

/-- Two fresh nodes in two different slots. -/
theorem exists_alloc_twice (ha : a.Consistent) :
    ∃ i a₁ j a₂, a.alloc = (i, a₁) ∧ a₁.alloc = (j, a₂) ∧ a₂.Consistent ∧ i ≠ j ∧
      a.graph i = none ∧ a.graph j = none ∧
      a₂.graph = Function.update (Function.update a.graph i (some (Node.fresh i))) j
        (some (Node.fresh j)) := by
  obtain ⟨i, a₁, h₁, hc₁, hi, hg₁⟩ := exists_alloc ha
  obtain ⟨j, a₂, h₂, hc₂, hj, hg₂⟩ := exists_alloc hc₁
  have hne : i ≠ j := by
    intro h
    subst h
    rw [hg₁, Function.update_self] at hj
    cases hj
  rw [hg₁, Function.update_of_ne hne.symm] at hj
  exact ⟨i, a₁, j, a₂, h₁, h₂, hc₂, hne, hi, hj, hg₁ ▸ hg₂⟩

theorem exists_setNext (ha : a.Consistent) (hn : a.graph i = some n) (target : Option Nat) :
    ∃ a', a.setNext i target = .ok a' ∧ a'.Consistent ∧
      a'.graph = Function.update a.graph i (some { n with next := target }) :=
  exists_modify ha hn (fun n => { n with next := target }) rfl

theorem exists_setOther (ha : a.Consistent) (hn : a.graph i = some n) (target : Option Nat) :
    ∃ a', a.setOther i target = .ok a' ∧ a'.Consistent ∧
      a'.graph = Function.update a.graph i (some { n with other := target }) :=
  exists_modify ha hn (fun n => { n with other := target }) rfl

/-- A fresh node with two references. -/
theorem exists_fork (ha : a.Consistent) (x y : Nat) :
    ∃ i a₁ a₂ b, a.alloc = (i, a₁) ∧ a₁.setNext i (some x) = .ok a₂ ∧
      a₂.setOther i (some y) = .ok b ∧ b.Consistent ∧ a.graph i = none ∧
      b.graph = Function.update a.graph i
        (some { Node.fresh i with next := some x, other := some y }) := by
  obtain ⟨i, a₁, h₁, hc₁, hi, hg₁⟩ := exists_alloc ha
  have hn₁ : a₁.graph i = some (Node.fresh i) := by rw [hg₁, Function.update_self]
  obtain ⟨a₂, h₂, hc₂, hg₂⟩ := exists_setNext hc₁ hn₁ (some x)
  have hn₂ : a₂.graph i = some { Node.fresh i with next := some x } := by
    rw [hg₂, Function.update_self]
  obtain ⟨b, h₃, hc₃, hg₃⟩ := exists_setOther hc₂ hn₂ (some y)
  refine ⟨i, a₁, a₂, b, h₁, h₂, h₃, hc₃, hi, ?_⟩
  rw [hg₃, hg₂, hg₁, Function.update_idem, Function.update_idem]

theorem exists_setEdge (ha : a.Consistent) (hn : a.graph i = some n) (edge : Edge) :
    ∃ a', a.setEdge i edge = .ok a' ∧ a'.Consistent ∧
      a'.graph = Function.update a.graph i (some { n with edge }) :=
  exists_modify ha hn (fun n => { n with edge }) rfl

theorem exists_setAnchor (ha : a.Consistent) (hn : a.graph i = some n) (anchor : Anchor) :
    ∃ a', a.setAnchor i anchor = .ok a' ∧ a'.Consistent ∧
      a'.graph = Function.update a.graph i (some { n with anchor }) :=
  exists_modify ha hn (fun n => { n with anchor }) rfl

/-- A second reference that is set only on some condition. -/
theorem exists_setOther_if (ha : a.Consistent) (hn : a.graph i = some n) (c : Bool)
    (target : Option Nat) :
    ∃ a', (if c then a.setOther i target else pure a) = .ok a' ∧ a'.Consistent ∧
      a'.graph = Function.update a.graph i
        (some { n with other := if c then target else n.other }) := by
  cases c with
  | true => exact exists_setOther ha hn target
  | false =>
      -- nothing is written, and what would be written is there already
      refine ⟨a, rfl, ha, ?_⟩
      funext j
      by_cases hj : j = i
      · subst hj
        rw [Function.update_self, hn]
        rfl
      · rw [Function.update_of_ne hj]

end Arena

/-! ## §3. Constructions. -/

theorem Edge.exists_lays (e : Edge) {a : Arena} (ha : a.Consistent) :
    ∃ f b, e.build a = .ok (f, b) ∧ b.Consistent ∧ f.Lays e a.graph b.graph := by
  obtain ⟨i, a₁, j, a₂, h₁, h₂, hc₂, hne, hi, hj, hg₂⟩ := Arena.exists_alloc_twice ha
  have hn₂ : a₂.graph i = some (Node.fresh i) := by
    rw [hg₂, Function.update_of_ne hne, Function.update_self]
  obtain ⟨a₃, h₃, hc₃, hg₃⟩ := Arena.exists_setNext hc₂ hn₂ (some j)
  have hn₃ : a₃.graph i = some { Node.fresh i with next := some j } := by
    rw [hg₃, Function.update_self]
  obtain ⟨a₄, h₄, hc₄, hg₄⟩ := Arena.exists_setEdge hc₃ hn₃ e
  refine ⟨⟨i, j⟩, a₄, ?_, hc₄, ⟨hi, hj, hne, ?_⟩, ?_, ?_⟩
  · simp only [Edge.build, Store.alloc, Store.setNext, Store.setEdge, h₁, h₂, h₃, h₄, bind,
      Except.bind]
    rfl
  · rw [hg₄, Function.update_of_ne hne.symm, hg₃, Function.update_of_ne hne.symm, hg₂,
      Function.update_self]
  · rw [hg₄, Function.update_self]
  · intro k hki hkj
    rw [hg₄, Function.update_of_ne hki, hg₃, Function.update_of_ne hki, hg₂,
      Function.update_of_ne hkj, Function.update_of_ne hki]

namespace Fragment

variable {f g : Fragment} {a : Arena} {l r : Node Nat}

/-- A slot that holds a node is not one that was empty. -/
theorem ne_of_unused {i j : Nat} (hi : a.graph i = some l) (hj : a.graph j = none) : i ≠ j := by
  intro h
  rw [h, hj] at hi
  cases hi

theorem exists_splices (ha : a.Consistent) (hl : a.graph f.last = some l)
    (hr : a.graph g.first = some r) (hne : f.last ≠ g.first) :
    ∃ b, a.splice f.last g.first = .ok b ∧ b.Consistent ∧ f.Splices g a.graph b.graph := by
  obtain ⟨b, hb, hc, hg⟩ := Arena.exists_splice ha hr hl hne
  refine ⟨b, hb, hc, ?_, ?_, ?_⟩
  · intro n t hn ht
    rw [hr] at hn
    rw [hl] at ht
    cases hn
    cases ht
    rw [hg, Function.update_self]
  · rw [hg, Function.update_of_ne hne.symm, Function.update_self]
  · intro k hk hk'
    rw [hg, Function.update_of_ne hk, Function.update_of_ne hk']

theorem exists_encloses (ha : a.Consistent) (hl : a.graph f.last = some l)
    (skips repeats : Bool) :
    ∃ g b, f.enclose skips repeats a = .ok (g, b) ∧ b.Consistent ∧
      g.Encloses f skips repeats a.graph b.graph := by
  obtain ⟨i, a₁, j, a₂, h₁, h₂, hc₂, hne, hi, hj, hg₂⟩ := Arena.exists_alloc_twice ha
  have hiLast : f.last ≠ i := ne_of_unused hl hi
  have hjLast : f.last ≠ j := ne_of_unused hl hj
  have hn₂ : a₂.graph i = some (Node.fresh i) := by
    rw [hg₂, Function.update_of_ne hne, Function.update_self]
  obtain ⟨a₃, h₃, hc₃, hg₃⟩ := Arena.exists_setNext hc₂ hn₂ (some f.first)
  have hl₃ : a₃.graph f.last = some l := by
    rw [hg₃, Function.update_of_ne hiLast, hg₂, Function.update_of_ne hjLast,
      Function.update_of_ne hiLast, hl]
  obtain ⟨a₄, h₄, hc₄, hg₄⟩ := Arena.exists_setNext hc₃ hl₃ (some j)
  have hn₄ : a₄.graph i = some { Node.fresh i with next := some f.first } := by
    rw [hg₄, Function.update_of_ne hiLast.symm, hg₃, Function.update_self]
  obtain ⟨a₅, h₅, hc₅, hg₅⟩ := Arena.exists_setOther_if hc₄ hn₄ skips (some j)
  have hl₅ : a₅.graph f.last = some { l with next := some j } := by
    rw [hg₅, Function.update_of_ne hiLast, hg₄, Function.update_self]
  obtain ⟨a₆, h₆, hc₆, hg₆⟩ := Arena.exists_setOther_if hc₅ hl₅ repeats (some f.first)
  refine ⟨⟨i, j⟩, a₆, ?_, hc₆, ⟨hi, hj, hne, ?_⟩, ?_, ?_, ?_⟩
  · cases skips <;> cases repeats <;>
      simp only [Bool.false_eq_true, if_false, if_true] at h₅ h₆ <;>
      simp only [Fragment.enclose, Store.alloc, Store.setNext, Store.setOther, h₁, h₂, h₃, h₄, h₅,
        h₆, bind, Except.bind, Bool.false_eq_true, if_false, if_true] <;>
      rfl
  · rw [hg₆, Function.update_of_ne hjLast.symm, hg₅, Function.update_of_ne hne.symm, hg₄,
      Function.update_of_ne hjLast.symm, hg₃, Function.update_of_ne hne.symm, hg₂,
      Function.update_self]
  · rw [hg₆, Function.update_of_ne hiLast.symm, hg₅, Function.update_self]
    rfl
  · intro l' hl'
    rw [hl] at hl'
    cases hl'
    rw [hg₆, Function.update_self]
  · intro k hk hki hkj
    rw [hg₆, Function.update_of_ne hk, hg₅, Function.update_of_ne hki, hg₄,
      Function.update_of_ne hk, hg₃, Function.update_of_ne hki, hg₂, Function.update_of_ne hkj,
      Function.update_of_ne hki]

theorem exists_joins (ha : a.Consistent) (hl : a.graph f.last = some l)
    (hr : a.graph g.last = some r) (hfg : f.last ≠ g.last) :
    ∃ h b, f.either g a = .ok (h, b) ∧ b.Consistent ∧ h.Joins f g a.graph b.graph := by
  obtain ⟨i, a₁, a₂, a₃, h₁, h₂, h₃, hc₃, hi, hg₃⟩ := Arena.exists_fork ha f.first g.first
  obtain ⟨j, a₄, h₄, hc₄, hj, hg₄⟩ := Arena.exists_alloc hc₃
  have hne : i ≠ j := by
    intro h
    subst h
    rw [hg₃, Function.update_self] at hj
    cases hj
  rw [hg₃, Function.update_of_ne hne.symm] at hj
  have hfi : f.last ≠ i := ne_of_unused hl hi
  have hfj : f.last ≠ j := ne_of_unused hl hj
  have hgi : g.last ≠ i := ne_of_unused hr hi
  have hgj : g.last ≠ j := ne_of_unused hr hj
  have hl₄ : a₄.graph f.last = some l := by
    rw [hg₄, Function.update_of_ne hfj, hg₃, Function.update_of_ne hfi, hl]
  obtain ⟨a₅, h₅, hc₅, hg₅⟩ := Arena.exists_setNext hc₄ hl₄ (some j)
  have hr₅ : a₅.graph g.last = some r := by
    rw [hg₅, Function.update_of_ne hfg.symm, hg₄, Function.update_of_ne hgj, hg₃,
      Function.update_of_ne hgi, hr]
  obtain ⟨a₆, h₆, hc₆, hg₆⟩ := Arena.exists_setNext hc₅ hr₅ (some j)
  refine ⟨⟨i, j⟩, a₆, ?_, hc₆, ⟨hi, hj, hne, ?_⟩, ?_, ?_, ?_, ?_⟩
  · simp only [Fragment.either, Store.alloc, Store.setNext, Store.setOther, h₁, h₂, h₃, h₄, h₅, h₆,
      bind, Except.bind]
    rfl
  · rw [hg₆, Function.update_of_ne hgj.symm, hg₅, Function.update_of_ne hfj.symm, hg₄,
      Function.update_self]
  · rw [hg₆, Function.update_of_ne hgi.symm, hg₅, Function.update_of_ne hfi.symm, hg₄,
      Function.update_of_ne hne, hg₃, Function.update_self]
  · intro l' hl'
    rw [hl] at hl'
    cases hl'
    rw [hg₆, Function.update_of_ne hfg, hg₅, Function.update_self]
  · intro r' hr'
    rw [hr] at hr'
    cases hr'
    rw [hg₆, Function.update_self]
  · intro k hkf hkg hki hkj
    rw [hg₆, Function.update_of_ne hkg, hg₅, Function.update_of_ne hkf, hg₄,
      Function.update_of_ne hkj, hg₃, Function.update_of_ne hki]

theorem exists_endsLine (ha : a.Consistent) (hl : a.graph f.last = some l) :
    ∃ g b, f.toLineEnd a = .ok (g, b) ∧ b.Consistent ∧ g.EndsLine f a.graph b.graph := by
  obtain ⟨i, a₁, h₁, hc₁, hi, hg₁⟩ := Arena.exists_alloc ha
  have hlast : f.last ≠ i := ne_of_unused hl hi
  have hl₁ : a₁.graph f.last = some l := by rw [hg₁, Function.update_of_ne hlast, hl]
  obtain ⟨a₂, h₂, hc₂, hg₂⟩ := Arena.exists_setEdge hc₁ hl₁ (.cls CharClass.lineEnd)
  have hl₂ : a₂.graph f.last = some { l with edge := .cls CharClass.lineEnd } := by
    rw [hg₂, Function.update_self]
  obtain ⟨a₃, h₃, hc₃, hg₃⟩ := Arena.exists_setNext hc₂ hl₂ (some i)
  refine ⟨⟨f.first, i⟩, a₃, ?_, hc₃, rfl, hi, ?_, ?_, ?_⟩
  · simp only [Fragment.toLineEnd, Store.alloc, Store.setEdge, Store.setNext, h₁, h₂, h₃, bind,
      Except.bind]
    rfl
  · rw [hg₃, Function.update_of_ne hlast.symm, hg₂, Function.update_of_ne hlast.symm, hg₁,
      Function.update_self]
  · intro l' hl'
    rw [hl] at hl'
    cases hl'
    rw [hg₃, Function.update_self]
  · intro k hk hki
    rw [hg₃, Function.update_of_ne hk, hg₂, Function.update_of_ne hk, hg₁,
      Function.update_of_ne hki]

end Fragment

end LineScan
