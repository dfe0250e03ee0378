/-
  LineScan.Proofs.Nfa.ClassEdges
  ──────────────────────────────
  **EVERY CLASS OF A PATTERN IS AN EDGE OF ITS AUTOMATON.**

  Building is a sequence of operations on an arena.  Each of them leaves the
  edges as they are, or moves a node together with its edge, or overwrites the
  edge of an exit, which has none to lose.  So an edge that is there once is
  there in the end (`Carries`, one lemma for each construct), through
  all further rules and through the renumbering at the end.
-/
import LineScan.Proofs.Nfa.RuleChain
import LineScan.Proofs.Pattern.Kept
import LineScan.Proofs.Plain.Tracking

namespace LineScan

/-! ## §1. Operations. -/

/-- Some node consumes along this edge. -/
def Arena.Holds (a : Arena) (e : Edge) : Prop := ∃ i n, a.graph i = some n ∧ n.edge = e

/-- **From one arena to another** the order is kept, and no edge `e` gets
lost. -/
structure Carries (e : Edge) (a b : Arena) : Prop where
  /-- The arena is in order. -/
  consistent : b.Consistent
  /-- The edge is still there. -/
  holds : a.Holds e → b.Holds e

section operations

variable {e : Edge} {a b c : Arena} {i j : Nat} {n m : Node Nat}

theorem Carries.refl (ha : a.Consistent) : Carries e a a := ⟨ha, id⟩

theorem Carries.trans (h : Carries e a b) (h' : Carries e b c) : Carries e a c :=
  ⟨h'.consistent, fun he => h'.holds (h.holds he)⟩

/-- A slot changes, and loses no such edge. -/
theorem Arena.Holds.update (h : a.Holds e)
    (hgraph : b.graph = Function.update a.graph i (some m))
    (hedge : ∀ n, a.graph i = some n → n.edge = e → m.edge = e) : b.Holds e := by
  obtain ⟨j, n, hn, he⟩ := h
  by_cases hj : j = i
  · subst hj
    exact ⟨j, m, by rw [hgraph, Function.update_self], hedge n hn he⟩
  · exact ⟨j, n, by rw [hgraph, Function.update_of_ne hj, hn], he⟩

theorem carries_alloc (ha : a.Consistent) (h : a.alloc = (i, b)) : Carries e a b := by
  obtain ⟨j, b', h', hb, hfree, hgraph⟩ := Arena.exists_alloc ha
  rw [h] at h'
  cases h'
  refine ⟨hb, fun he => he.update hgraph ?_⟩
  -- the slot was empty
  intro n hn
  rw [hfree] at hn
  cases hn

/-- What a write that succeeds does to the graph. -/
theorem exists_graph_of_modify {f : Node Nat → Node Nat} (ha : a.Consistent)
    (hindex : ∀ n, (f n).index = n.index) (h : a.modify i f = .ok b) :
    ∃ n, a.graph i = some n ∧ b.Consistent ∧
      b.graph = Function.update a.graph i (some (f n)) := by
  obtain ⟨n, hget, _⟩ := exists_of_bind_eq_ok h
  have hn : a.graph i = some n := Arena.get_eq_ok_iff.1 hget
  obtain ⟨b', h', hb, hgraph⟩ := Arena.exists_modify ha hn f (hindex n)
  rw [h] at h'
  cases h'
  exact ⟨n, hn, hb, hgraph⟩

/-- A write that leaves the edge as it is. -/
theorem carries_modify {f : Node Nat → Node Nat} (ha : a.Consistent)
    (hindex : ∀ n, (f n).index = n.index) (hedge : ∀ n, (f n).edge = n.edge)
    (h : a.modify i f = .ok b) : Carries e a b := by
  obtain ⟨n, hn, hb, hgraph⟩ := exists_graph_of_modify ha hindex h
  refine ⟨hb, fun he => he.update hgraph ?_⟩
  intro n' hn' he
  rw [hn] at hn'
  cases hn'
  rw [hedge, he]

theorem carries_setNext {target : Option Nat} (ha : a.Consistent)
    (h : a.setNext i target = .ok b) : Carries e a b :=
  carries_modify (f := fun n => { n with next := target }) ha (fun _ => rfl) (fun _ => rfl) h

theorem carries_setOther {target : Option Nat} (ha : a.Consistent)
    (h : a.setOther i target = .ok b) : Carries e a b :=
  carries_modify (f := fun n => { n with other := target }) ha (fun _ => rfl) (fun _ => rfl) h

/-- A second reference that is set only on some condition, before the rest of
a construction. -/
theorem exists_of_setOther_if {α : Type} {condition : Bool} {target : Option Nat} {r : α}
    {k : Arena → Except Fault α} (ha : a.Consistent)
    (h : (if condition then a.setOther i target >>= k else k a) = .ok r) :
    ∃ b, Carries e a b ∧ k b = .ok r := by
  cases condition with
  | true =>
      obtain ⟨b, hb, hk⟩ := exists_of_bind_eq_ok h
      exact ⟨b, carries_setOther ha hb, hk⟩
  | false => exact ⟨a, .refl ha, h⟩

/-- An edge may be overwritten where there was none. -/
theorem carries_setEdge {e' : Edge} (ha : a.Consistent) (he : e ≠ .epsilon)
    (hn : a.graph i = some n) (hnone : n.edge = .epsilon) (h : a.setEdge i e' = .ok b) :
    Carries e a b ∧ b.Holds e' := by
  obtain ⟨n', hn', hb, hgraph⟩ := exists_graph_of_modify
    (f := fun n => { n with edge := e' }) ha (fun _ => rfl) h
  rw [hn] at hn'
  cases hn'
  refine ⟨⟨hb, fun hold => hold.update hgraph ?_⟩, i, _, by rw [hgraph, Function.update_self], rfl⟩
  intro n' hn' he'
  rw [hn] at hn'
  cases hn'
  exact absurd (he'.symm.trans hnone) he

/-- A node that is merged into an exit keeps its edge. -/
theorem carries_splice (ha : a.Consistent) (he : e ≠ .epsilon) (hn : a.graph i = some n)
    (hnone : n.edge = .epsilon) (hm : a.graph j = some m) (hne : i ≠ j)
    (h : a.splice i j = .ok b) : Carries e a b := by
  obtain ⟨b', h', hb, hgraph⟩ := Arena.exists_splice ha hm hn hne
  rw [h] at h'
  cases h'
  refine ⟨hb, ?_⟩
  rintro ⟨k, l, hl, hk⟩
  by_cases hki : k = i
  · subst hki
    rw [hn] at hl
    cases hl
    exact absurd (hk.symm.trans hnone) he
  · by_cases hkj : k = j
    · -- the edge is at the target now
      subst hkj
      rw [hm] at hl
      cases hl
      exact ⟨i, { m with index := n.index }, by rw [hgraph, Function.update_self], hk⟩
    · refine ⟨k, l, ?_, hk⟩
      rw [hgraph, Function.update_of_ne hki, Function.update_of_ne hkj, hl]

end operations

/-! ## §2. Expressions. -/

section expressions

variable {e : Edge} {a b : Arena} {f g r : Fragment} {S : Set Nat} {L : Language UInt8}

/-- A fragment is built on empty slots. -/
theorem Fragment.BuiltOn.carries (hf : f.BuiltOn a b S L) : Carries e a b := by
  refine ⟨hf.consistent, ?_⟩
  rintro ⟨i, n, hn, he⟩
  have hi : i ∉ S := by
    intro hi
    rw [hf.unused i hi] at hn
    cases hn
  exact ⟨i, n, by rw [hf.frame i hi, hn], he⟩

theorem Edge.holds_build (ha : a.Consistent) (he : e ≠ .epsilon)
    (h : e.build a = .ok (f, b)) : b.Holds e := by
  obtain ⟨i, a₁, j, a₂, h₁, h₂, hc₂, hne, _, _, hg₂⟩ := Arena.exists_alloc_twice ha
  have hn₂ : a₂.graph i = some (Node.fresh i) := by
    rw [hg₂, Function.update_of_ne hne, Function.update_self]
  obtain ⟨a₃, h₃, hc₃, hg₃⟩ := Arena.exists_setNext hc₂ hn₂ (some j)
  have hn₃ : a₃.graph i = some { Node.fresh i with next := some j } := by
    rw [hg₃, Function.update_self]
  unfold Edge.build at h
  simp only [Store.alloc, Store.setNext, h₁, h₂, h₃, ok_bind] at h
  obtain ⟨a₄, h₄, hb⟩ := exists_of_bind_eq_ok h
  cases hb
  exact (carries_setEdge hc₃ he hn₃ rfl h₄).2

theorem Fragment.carries_enclose {skips repeats : Bool} (ha : a.Consistent)
    (h : f.enclose skips repeats a = .ok (g, b)) : Carries e a b := by
  obtain ⟨i, a₁, j, a₂, h₁, h₂, hc₂, _⟩ := Arena.exists_alloc_twice ha
  have hfresh : Carries e a a₂ := (carries_alloc ha h₁).trans
    (carries_alloc (carries_alloc (e := e) ha h₁).consistent h₂)
  unfold Fragment.enclose at h
  simp only [Store.alloc, h₁, h₂, ok_bind] at h
  obtain ⟨a₃, h₃, h⟩ := exists_of_bind_eq_ok h
  have hnext : Carries e a a₃ := hfresh.trans (carries_setNext hfresh.consistent h₃)
  obtain ⟨a₄, h₄, h⟩ := exists_of_bind_eq_ok h
  have hexit : Carries e a a₄ := hnext.trans (carries_setNext hnext.consistent h₄)
  obtain ⟨a₅, h₅, h⟩ := exists_of_setOther_if (e := e) hexit.consistent h
  obtain ⟨a₆, h₆, h⟩ := exists_of_setOther_if (e := e) h₅.consistent h
  cases h
  exact hexit.trans (h₅.trans h₆)

theorem Fragment.carries_either (ha : a.Consistent) (h : f.either g a = .ok (r, b)) :
    Carries e a b := by
  obtain ⟨i, a₁, h₁⟩ : ∃ i a₁, a.alloc = (i, a₁) := ⟨_, _, rfl⟩
  have hfork : Carries e a a₁ := carries_alloc ha h₁
  unfold Fragment.either at h
  simp only [Store.alloc, h₁, ok_bind] at h
  obtain ⟨a₂, h₂, h⟩ := exists_of_bind_eq_ok h
  have hleft : Carries e a a₂ := hfork.trans (carries_setNext hfork.consistent h₂)
  obtain ⟨a₃, h₃, h⟩ := exists_of_bind_eq_ok h
  have hright : Carries e a a₃ := hleft.trans (carries_setOther hleft.consistent h₃)
  obtain ⟨j, a₄, h₄⟩ : ∃ j a₄, a₃.alloc = (j, a₄) := ⟨_, _, rfl⟩
  have hjoin : Carries e a a₄ := hright.trans (carries_alloc hright.consistent h₄)
  simp only [h₄] at h
  obtain ⟨a₅, h₅, h⟩ := exists_of_bind_eq_ok h
  have hback : Carries e a a₅ := hjoin.trans (carries_setNext hjoin.consistent h₅)
  obtain ⟨a₆, h₆, h⟩ := exists_of_bind_eq_ok h
  cases h
  exact hback.trans (carries_setNext hback.consistent h₆)

/-- **Every class of an expression** is an edge of what is built from it. -/
theorem Regex.holds_build (r : Regex) {c : CharClass} (ha : a.Consistent)
    (h : r.build a = .ok (f, b)) (hc : c ∈ r.classes) : b.Holds (.cls c) := by
  have he : Edge.cls c ≠ .epsilon := by simp
  -- what the parts have built is carried through the rest of the construction
  induction r generalizing a b f with
  | symbol s => cases hc
  | cls d =>
      rw [List.mem_singleton.1 hc] at he ⊢
      exact Edge.holds_build ha he h
  | cat first second ih ih' =>
      obtain ⟨x, a₁, S, h₁, hx⟩ := first.exists_build ha
      obtain ⟨y, a₂, T, h₂, hy⟩ := second.exists_build hx.consistent
      have hheld : a₂.Holds (.cls c) := by
        rcases List.mem_append.1 hc with hc | hc
        · exact hy.carries.holds (ih ha h₁ hc)
        · exact ih' hx.consistent h₂ hc
      simp only [Regex.build, h₁, h₂, ok_bind] at h
      obtain ⟨a₃, h₃, h⟩ := exists_of_bind_eq_ok h
      cases h
      obtain ⟨n, hn, hnone, _⟩ := (hx.spans_after hy).exit
      obtain ⟨m, hm⟩ := hy.spans.live hy.spans.first_mem
      exact (carries_splice hy.consistent he hn hnone hm (hx.last_ne_first hy) h₃).holds hheld
  | alt left right ih ih' =>
      obtain ⟨x, a₁, S, h₁, hx⟩ := left.exists_build ha
      obtain ⟨y, a₂, T, h₂, hy⟩ := right.exists_build hx.consistent
      have hheld : a₂.Holds (.cls c) := by
        rcases List.mem_append.1 hc with hc | hc
        · exact hy.carries.holds (ih ha h₁ hc)
        · exact ih' hx.consistent h₂ hc
      simp only [Regex.build, h₁, h₂, ok_bind] at h
      exact (Fragment.carries_either hy.consistent h).holds hheld
  | star body ih | plus body ih | optional body ih =>
      obtain ⟨x, a₁, S, h₁, hx⟩ := body.exists_build ha
      have hheld : a₁.Holds (.cls c) := ih ha h₁ hc
      simp only [Regex.build, h₁, ok_bind] at h
      exact (Fragment.carries_enclose hx.consistent h).holds hheld

end expressions

/-! ## §3. Rules. -/

section rules

variable {e : Edge} {a a' b : Arena} {f g : Fragment} {S : Set Nat} {L : Language UInt8}
  {c : CharClass}

theorem Regex.holds_buildAtLineStart (r : Regex) (ha : a.Consistent)
    (h : r.buildAtLineStart a = .ok (f, b)) (hc : c ∈ r.classes) : b.Holds (.cls c) := by
  obtain ⟨i, a₁, h₁, hc₁, _, hg₁⟩ := Arena.exists_alloc ha
  have hn₁ : a₁.graph i = some (Node.fresh i) := by rw [hg₁, Function.update_self]
  obtain ⟨a₂, h₂, hc₂, _⟩ := Arena.exists_setEdge hc₁ hn₁ (.byte Symbol.lineFeed.toByte)
  obtain ⟨x, a₃, T, h₃, hx⟩ := r.exists_build hc₂
  unfold Regex.buildAtLineStart at h
  simp only [Store.alloc, Store.setEdge, h₁, h₂, h₃, ok_bind] at h
  obtain ⟨a₄, h₄, h⟩ := exists_of_bind_eq_ok h
  cases h
  exact (carries_setNext hx.consistent h₄).holds (r.holds_build hc₂ h₃ hc)

/-- A line end is consumed where nothing was. -/
theorem Fragment.BuiltOn.carries_toLineEnd (hf : f.BuiltOn a a' S L) (he : e ≠ .epsilon)
    (h : f.toLineEnd a' = .ok (g, b)) : Carries e a' b := by
  obtain ⟨i, a₁, h₁, hc₁, hi, hg₁⟩ := Arena.exists_alloc hf.consistent
  obtain ⟨n, hn, hnone, _⟩ := hf.graph_last
  have hlast : f.last ≠ i := Fragment.ne_of_unused hn hi
  have hn₁ : a₁.graph f.last = some n := by rw [hg₁, Function.update_of_ne hlast, hn]
  unfold Fragment.toLineEnd at h
  simp only [Store.alloc, h₁, ok_bind] at h
  obtain ⟨a₂, h₂, h⟩ := exists_of_bind_eq_ok h
  obtain ⟨a₃, h₃, h⟩ := exists_of_bind_eq_ok h
  cases h
  have hedge : Carries e a' a₂ := (carries_alloc hf.consistent h₁).trans
    (carries_setEdge hc₁ he hn₁ hnone h₂).1
  exact hedge.trans (carries_setNext hedge.consistent h₃)

/-- **Every class of a rule** is an edge of what is built from it. -/
theorem Rule.holds_build (r : Rule) (ha : a.Consistent) (h : r.build a = .ok (f, b))
    (hc : c ∈ r.body.classes) : b.Holds (.cls c) := by
  rw [Rule.build_eq, Rule.buildBody] at h
  obtain ⟨⟨y, a₂⟩, hbody, h⟩ := exists_of_bind_eq_ok h
  obtain ⟨⟨x, a₁⟩, hstart, hend⟩ := exists_of_bind_eq_ok hbody
  obtain ⟨a₃, h₃, h⟩ := exists_of_bind_eq_ok h
  cases h
  have hbuilt : (∃ S L, x.BuiltOn a a₁ S L) ∧ a₁.Holds (.cls c) := by
    cases hbol : r.bol with
    | true =>
        rw [hbol, if_pos rfl] at hstart
        obtain ⟨x', a', S, h', hx, _⟩ := r.body.exists_buildAtLineStart ha
        rw [hstart] at h'
        cases h'
        exact ⟨⟨_, _, hx⟩, r.body.holds_buildAtLineStart ha hstart hc⟩
    | false =>
        rw [hbol, if_neg Bool.false_ne_true] at hstart
        obtain ⟨x', a', S, h', hx⟩ := r.body.exists_build ha
        rw [hstart] at h'
        cases h'
        exact ⟨⟨_, _, hx⟩, r.body.holds_build ha hstart hc⟩
  obtain ⟨⟨S, L, hx⟩, hheld⟩ := hbuilt
  have hline : Carries (.cls c) a₁ a₂ := by
    cases heol : r.eol with
    | true =>
        rw [heol, if_pos rfl] at hend
        exact hx.carries_toLineEnd (by simp) hend
    | false =>
        rw [heol, if_neg Bool.false_ne_true] at hend
        cases hend
        exact .refl hx.consistent
  have hanchor : Carries (.cls c) a₂ b :=
    carries_modify (f := fun n => { n with anchor := r.anchor }) hline.consistent
      (fun _ => rfl) (fun _ => rfl) h₃
  exact hanchor.holds (hline.holds hheld)

/-- A rule is built on empty slots. -/
theorem Rule.carries_build (r : Rule) (ha : a.Consistent) (h : r.build a = .ok (f, b)) :
    Carries e a b := by
  obtain ⟨f', b', S, h', hf⟩ := r.exists_build ha
  rw [h] at h'
  cases h'
  exact hf.carries

/-- A rule is built and hung off a link. -/
theorem Rule.carries_hang (r : Rule) {link : Nat} {target : Option Nat} (ha : a.Consistent)
    (h : r.build a = .ok (f, a')) (h' : a'.setNext link target = .ok b) :
    (∀ e, Carries e a b) ∧ ∀ c ∈ r.body.classes, b.Holds (.cls c) := by
  have hrule : ∀ e, Carries e a a' := fun e => r.carries_build ha h
  have hlink : ∀ e, Carries e a' b := fun e => carries_setNext (hrule e).consistent h'
  exact ⟨fun e => (hrule e).trans (hlink e), fun c hc =>
    (hlink _).holds (r.holds_build ha h hc)⟩

/-- **What hangs off a chain** is carried through, and every class of its rules
is an edge. -/
theorem buildChain_carries (rules : List Rule) {link : Nat} {fs : List Fragment}
    (ha : a.Consistent) (h : buildChain link a rules = .ok (fs, b)) :
    (∀ e, Carries e a b) ∧ ∀ c ∈ classesOf rules, b.Holds (.cls c) := by
  -- the induction is on the chain; a rule is followed by its link, then by the others
  induction rules generalizing link a fs with
  | nil =>
      cases h
      exact ⟨fun e => .refl ha, fun c hc => by cases hc⟩
  | cons r rules ih =>
      cases rules with
      | nil =>
          simp only [buildChain] at h
          obtain ⟨⟨f, a₁⟩, h₁, h⟩ := exists_of_bind_eq_ok h
          obtain ⟨a₂, h₂, h⟩ := exists_of_bind_eq_ok h
          cases h
          rw [classesOf_singleton]
          exact r.carries_hang ha h₁ h₂
      | cons r' rest =>
          simp only [buildChain] at h
          obtain ⟨⟨f, a₁⟩, h₁, h⟩ := exists_of_bind_eq_ok h
          obtain ⟨a₂, h₂, h⟩ := exists_of_bind_eq_ok h
          obtain ⟨further, a₃, h₃⟩ : ∃ further a₃, a₂.alloc = (further, a₃) := ⟨_, _, rfl⟩
          simp only [Store.alloc, h₃, ok_bind] at h
          obtain ⟨a₄, h₄, h⟩ := exists_of_bind_eq_ok h
          obtain ⟨⟨fs', a₅⟩, h₅, h⟩ := exists_of_bind_eq_ok h
          cases h
          obtain ⟨hhung, hheld⟩ := r.carries_hang ha h₁ h₂
          have hfresh : ∀ e, Carries e a₂ a₃ := fun e => carries_alloc (hhung e).consistent h₃
          have hfurther : ∀ e, Carries e a₂ a₄ := fun e =>
            (hfresh e).trans (carries_setOther (hfresh e).consistent h₄)
          obtain ⟨hrest, hothers⟩ := ih (hfurther .epsilon).consistent h₅
          have hlater : ∀ e, Carries e a₂ a₅ := fun e => (hfurther e).trans (hrest e)
          refine ⟨fun e => (hhung e).trans (hlater e), ?_⟩
          intro c hc
          rw [← List.singleton_append, classesOf_append, classesOf_singleton,
            List.mem_append] at hc
          rcases hc with hc | hc
          · exact (hlater _).holds (hheld c hc)
          · exact hothers c hc

end rules

/-! ## §4. The automaton. -/

/-- **Every class of the rules is an edge of their automaton.** -/
theorem Nfa.exists_edge_of_ofRules {rules : List Rule} {nfa : Nfa}
    (h : Nfa.ofRules? rules = .ok nfa) {c : CharClass} (hc : c ∈ classesOf rules) :
    ∃ i, (nfa.node i).edge = .cls c := by
  cases rules with
  | nil => cases hc
  | cons r rest =>
      obtain ⟨asm, n, hasm, hcons, hground, hn, _⟩ := Assembly.exists_ofRules r rest
      obtain ⟨nfa', slot, hfinish, hslot, honto⟩ := Arena.exists_finish hcons hground hn
      simp only [Nfa.ofRules?, hasm, ok_bind] at h
      rw [Assembly.finish, hfinish] at h
      cases h
      -- the arena that was finished holds the class
      have hheld : asm.arena.Holds (.cls c) := by
        obtain ⟨⟨_, b⟩, hbuilt, hdone⟩ := exists_of_bind_eq_ok hasm
        cases hdone
        unfold buildRules at hbuilt
        obtain ⟨start, a, hstart⟩ : ∃ start a, Arena.empty.alloc = (start, a) := ⟨_, _, rfl⟩
        simp only [Store.alloc, hstart, ok_bind] at hbuilt
        obtain ⟨⟨fs, d⟩, hchain, hdone⟩ := exists_of_bind_eq_ok hbuilt
        cases hdone
        have ha : Carries .epsilon Arena.empty a :=
          carries_alloc Arena.consistent_empty hstart
        exact (buildChain_carries (r :: rest) ha.consistent hchain).2 c hc
      obtain ⟨j, m, hm, hedge⟩ := hheld
      obtain ⟨k, hk⟩ := honto j m hm
      obtain ⟨m', hm', hrenumbers⟩ := hslot.node k
      rw [hk, hm] at hm'
      cases hm'
      exact ⟨k, hrenumbers.edge.trans hedge⟩

end LineScan
