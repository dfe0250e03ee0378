/-
  LineScan.Proofs.Plain.Assembling
  ────────────────────────────────
  **READING AND BUILDING IN ONE GO NEVER FAILS.**

  The rules that the reader has completed hang off a chain whose last link is
  a fresh node, and building further rules goes on from there (`ChainedTo`).
  With what is held back of the rule being read (`Tracks`), that is all there
  is to a builder (`Builder.KeepsUp`).  One item keeps it, hence so do all of
  them, and at the end the builder holds what the rules are built to.
-/
import LineScan.Proofs.Plain.Tracking

namespace LineScan

/-! ## §1. The chain. -/

/-- Building further rules behind those that have been built goes on from
their last link. -/
def ChainedTo (start : Nat) (empty : Arena) (rules : List Rule) (link : Nat)
    (fragments : List Fragment) (a : Arena) : Prop :=
  ∀ r rest, buildChain start empty (rules ++ r :: rest) =
    (buildChain link a (r :: rest)).map fun x => (fragments ++ x.1, x.2)

/-- **The builder has kept up with the reader.** -/
def Builder.KeepsUp (start : Nat) (empty : Arena) (r : Reader) (b : Builder) : Prop :=
  ∃ a : Arena, a.Consistent ∧ a.graph b.link = some (Node.fresh b.link) ∧
    ChainedTo start empty r.rules b.link b.fragments a ∧ Tracks a r.phase b.phase b.arena

section Chain

variable {start link : Nat} {empty a c : Arena} {rules : List Rule} {fragments : List Fragment}
  {rule : Rule} {f : Fragment}

/-- A complete rule is hung on the chain, and the chain can be lengthened. -/
theorem exists_hang? (ha : a.Consistent) (hlink : a.graph link = some (Node.fresh link))
    (hchain : ChainedTo start empty rules link fragments a)
    (hrule : rule.buildBody a = .ok (f, c)) (phase : BuiltPhase) :
    ∃ b, Builder.hang? ⟨c, link, fragments, phase⟩ rule.anchor f = .ok b ∧
      buildChain start empty (rules ++ [rule]) = .ok (b.fragments, b.arena) ∧
      ∃ b', b.lengthen? = .ok b' ∧ b'.arena.Consistent ∧
        b'.arena.graph b'.link = some (Node.fresh b'.link) ∧
        ChainedTo start empty (rules ++ [rule]) b'.link b'.fragments b'.arena := by
  obtain ⟨f', a₁, a₂, S, hbuild, hnext, hung⟩ := rule.exists_build_setNext ha hlink
  have hanchor := hbuild
  rw [Rule.build_eq, hrule, ok_bind] at hanchor
  obtain ⟨_, hset, he⟩ := exists_of_bind_eq_ok hanchor
  cases he
  obtain ⟨further, a₃, a₄, halloc, hother, hc₄, hlinks⟩ := hung.exists_further
  refine ⟨⟨a₂, link, fragments ++ [f], phase⟩, ?_, ?_, ⟨a₄, further, fragments ++ [f], phase⟩, ?_,
    hc₄, hlinks.fresh, ?_⟩
  · unfold Builder.hang?
    simp only [hset, hnext, ok_bind]
    rfl
  · rw [hchain, buildChain, hbuild, ok_bind]
    simp only [Store.setNext, hnext, ok_bind]
    rfl
  · unfold Builder.lengthen?
    simp only [Arena.alloc?_eq_alloc hung.consistent, halloc, hother, ok_bind]
    rfl
  · intro r rest
    rw [List.append_assoc, List.singleton_append, hchain, buildChain, hbuild, ok_bind]
    simp only [Store.setNext, Store.alloc, Store.setOther, hnext, halloc, hother, ok_bind]
    cases buildChain further a₄ (r :: rest) with
    | error e => rfl
    | ok x =>
        show Except.ok (fragments ++ f :: x.1, x.2) = .ok (fragments ++ [f] ++ x.1, x.2)
        rw [List.append_assoc, List.singleton_append]

end Chain

/-! ## §2. One item. -/

/-- The builder goes on as the reader does, or refuses for the same
reason. -/
def Builder.Follows (start : Nat) (empty : Arena) (x : Except Refusal Reader)
    (y : Except CompileError Builder) : Prop :=
  match x with
  | .ok r => ∃ b, y = .ok b ∧ b.KeepsUp start empty r
  | .error refusal => y = .error (.pattern refusal.error)

namespace Builder

variable {start : Nat} {empty : Arena}

theorem follows_enter {a : Arena} {r : Reader} {b : Builder} (ha : a.Consistent)
    (hlink : a.graph b.link = some (Node.fresh b.link))
    (hchain : ChainedTo start empty r.rules b.link b.fragments a) {x : Except SyntaxError Phase}
    {y : Except CompileError (BuiltPhase × Arena)} (h : LineScan.Follows a x y) :
    Follows start empty (r.enter x) (b.enter y) := by
  cases x with
  | error e =>
      have hy : y = .error (.pattern e) := h
      rw [hy]
      rfl
  | ok phase =>
      obtain ⟨phase', c, hy, htracks⟩ := h
      rw [hy]
      exact ⟨_, rfl, a, ha, hlink, hchain, htracks⟩

/-- **One token** keeps the builder with the reader. -/
theorem follows_step {r : Reader} {b : Builder} (h : b.KeepsUp start empty r) (t : Token) :
    Follows start empty (r.step t) (b.step? t) := by
  obtain ⟨rules, phase⟩ := r
  obtain ⟨arena, link, fragments, phase'⟩ := b
  obtain ⟨a, ha, hlink, hchain, htracks⟩ := h
  cases htracks with
  | ruleStart => exact follows_enter ha hlink hchain (follows_ruleStartStep ha t)
  | @operand outer outer' alts alts' b' c' houter halts =>
      have hbranch : BranchBuilt ⟨alts, none⟩ ⟨alts', none⟩ b' arena := ⟨arena, halts, .none⟩
      exact follows_enter ha hlink hchain (follows_beginFactor ha t houter hbranch)
  | afterTerm houter hbefore hterm =>
      exact follows_enter ha hlink hchain (follows_afterTermStep ha t houter hbefore hterm)
  | afterFactor houter halts hcat =>
      exact follows_enter ha hlink hchain (follows_afterFactorStep ha t houter halts hcat)
  | inBracket openedAt bracket houter hbefore hpair =>
      exact follows_enter ha hlink hchain
        (follows_bracketStep ha t openedAt bracket houter hbefore hpair)
  | @afterDollar rule f c heol hrule =>
      have hanchor : rule.anchor = ⟨rule.bol, true⟩ := by
        rw [Rule.anchor, heol]
      obtain ⟨b, hhang, _, b', hlengthen, hb', hlink', hchain'⟩ :=
        exists_hang? ha hlink hchain hrule (.afterDollar rule.bol f)
      rw [hanchor] at hhang
      unfold Reader.step step?
      by_cases hparen : t.kind = .rightParen
      · simp only [hparen, if_true]
        rfl
      · simp only [hparen, if_false, hhang, hlengthen, orFault_ok, ok_bind]
        exact follows_enter hb' hlink' hchain' (follows_ruleStartStep hb' t)

theorem follows_feed {r : Reader} {b : Builder} (h : b.KeepsUp start empty r) (i : Item) :
    Follows start empty (r.feed i) (b.feed? i) := by
  cases i with
  | token t => exact follows_step h t
  | foreign byte position => exact rfl

/-- **All items** do. -/
theorem follows_feedAll {r : Reader} {b : Builder} (h : b.KeepsUp start empty r)
    (items : List Item) : Follows start empty (r.feedAll items) (items.foldlM feed? b) := by
  induction items generalizing r b with
  | nil => exact ⟨b, rfl, h⟩
  | cons i items ih =>
      have hfeed := follows_feed h i
      unfold Reader.feedAll
      rw [List.foldlM_cons, List.foldlM_cons]
      cases hi : r.feed i with
      | error refusal =>
          rw [hi] at hfeed
          have hb : b.feed? i = .error (.pattern refusal.error) := hfeed
          rw [hb]
          rfl
      | ok r' =>
          rw [hi] at hfeed
          obtain ⟨b', hb, h'⟩ := hfeed
          rw [hb, ok_bind, ok_bind]
          exact ih h'

/-! ## §3. A whole pattern. -/

/-- The builder ends with what the rules are built to, or refuses for the same
reason as the reader. -/
def Ends (start : Nat) (empty : Arena) (x : Except Refusal (List Rule))
    (y : Except CompileError Builder) : Prop :=
  match x with
  | .ok rules => ∃ b, y = .ok b ∧ buildChain start empty rules = .ok (b.fragments, b.arena)
  | .error refusal => y = .error (.pattern refusal.error)

/-- A rule that ends with its last factor. -/
theorem ends_close {a b c d : Arena} {rules : List Rule} {link : Nat} {fragments : List Fragment}
    {phase : Phase} {phase' : BuiltPhase} (ha : a.Consistent)
    (hlink : a.graph link = some (Node.fresh link))
    (hchain : ChainedTo start empty rules link fragments a) {outer : Outer} {outer' : BuiltOuter}
    {alts : Option Regex} {alts' : Option Fragment} {cat : Regex} {f : Fragment}
    (houter : OuterBuilt outer outer' a b) (halts : OptionBuilt alts alts' b c)
    (hcat : cat.build c = .ok (f, d)) :
    Ends start empty (Reader.close ⟨rules, phase⟩ outer (Branch.join .alt alts cat)) (do
      let (f, e) ← BuiltPhase.close? outer' alts' f d
      orFault (hang? ⟨e, link, fragments, phase'⟩ ⟨outer'.bol.isSome, false⟩ f)) := by
  obtain ⟨g, e, hjoin, hbuild⟩ := exists_joinAlt? (houter.consistent ha) halts hcat
  obtain ⟨bol, groups⟩ := outer
  obtain ⟨bol', groups'⟩ := outer'
  obtain ⟨b₀, hbol, hgroups⟩ := houter
  unfold Reader.close BuiltPhase.close?
  cases hgroups with
  | nil =>
      obtain ⟨h, i, hstart, _, hbody⟩ := exists_startLine? ha hbol hbuild
      have hrule : Rule.buildBody ⟨bol, Branch.join .alt alts cat, false⟩ a = .ok (h, i) := by
        unfold Rule.buildBody
        rw [hbody]
        rfl
      have hisSome : bol'.isSome = bol := by
        cases hbol <;> rfl
      obtain ⟨b', hhang, hrules, _⟩ := exists_hang? ha hlink hchain hrule phase'
      refine ⟨b', ?_, hrules⟩
      simp only [hjoin, hstart, orFault_ok, ok_bind, hisSome]
      exact congrArg orFault hhang
  | cons openedAt hgroups hbefore =>
      simp only [hjoin, orFault_ok, ok_bind]
      rfl

/-- **The end of a pattern** finds the builder where it finds the reader. -/
theorem ends_finish {r : Reader} {b : Builder} (h : b.KeepsUp start empty r) (stop : Nat) :
    Ends start empty (r.finish stop) (b.finish? stop) := by
  obtain ⟨rules, phase⟩ := r
  obtain ⟨arena, link, fragments, phase'⟩ := b
  obtain ⟨a, ha, hlink, hchain, htracks⟩ := h
  cases htracks with
  | ruleStart => exact rfl
  | operand houter halts => exact rfl
  | afterTerm houter hbefore hterm =>
      obtain ⟨b', halts, hcat⟩ := hbefore
      have hb' := halts.consistent (houter.consistent ha)
      obtain ⟨g, e, hjoin, hbuild⟩ := exists_joinCat? hb' hcat hterm
      unfold Reader.finish finish?
      simp only [hjoin, orFault_ok, ok_bind]
      exact ends_close ha hlink hchain houter halts hbuild
  | afterFactor houter halts hcat => exact ends_close ha hlink hchain houter halts hcat
  | inBracket openedAt bracket houter hbefore hpair => exact rfl
  | @afterDollar rule f c heol hrule =>
      have hanchor : rule.anchor = ⟨rule.bol, true⟩ := by
        rw [Rule.anchor, heol]
      obtain ⟨b, hhang, hrules, _⟩ :=
        exists_hang? ha hlink hchain hrule (.afterDollar rule.bol f)
      rw [hanchor] at hhang
      exact ⟨b, congrArg orFault hhang, hrules⟩

/-- **All items and the end.** -/
theorem ends_read {r : Reader} {b : Builder} (h : b.KeepsUp start empty r) (items : List Item)
    (stop : Nat) :
    Ends start empty (r.feedAll items >>= fun r => r.finish stop)
      (items.foldlM feed? b >>= fun b => b.finish? stop) := by
  have hall := follows_feedAll h items
  cases hread : r.feedAll items with
  | error refusal =>
      rw [hread] at hall
      have hfold : items.foldlM feed? b = .error (.pattern refusal.error) := hall
      rw [hfold]
      rfl
  | ok r' =>
      rw [hread] at hall
      obtain ⟨b', hfold, h'⟩ := hall
      rw [hfold]
      exact ends_finish h' stop

/-- The builder keeps up from the beginning: nothing has been built but the
first link of the chain. -/
theorem exists_start :
    ∃ start empty, Arena.empty.alloc = (start, empty) ∧
      start? = .ok ⟨empty, start, [], .ruleStart⟩ ∧
      KeepsUp start empty Reader.start ⟨empty, start, [], .ruleStart⟩ := by
  obtain ⟨start, empty, halloc, hempty, _, hgraph⟩ := Arena.exists_alloc Arena.consistent_empty
  refine ⟨start, empty, halloc, ?_, empty, hempty, ?_, ?_, .ruleStart⟩
  · unfold start?
    rw [Arena.alloc?_eq_alloc Arena.consistent_empty, halloc]
    rfl
  · rw [hgraph, Function.update_self]
  · intro r rest
    show buildChain start empty (r :: rest) = _
    cases buildChain start empty (r :: rest) <;> rfl

end Builder

/-- **Reading and building in one go** gives the nodes of the rules, or the
reason why there are none. -/
theorem assemble?_eq (pattern : String) :
    assemble? pattern = rulesOf pattern >>= assemblyOf := by
  obtain ⟨start, empty, halloc, hstart, hkeeps⟩ := Builder.exists_start
  have hends : Builder.Ends start empty (readRules pattern) _ :=
    Builder.ends_read hkeeps (itemsOf pattern) (endOf pattern)
  unfold assemble? rulesOf
  rw [items?_start, hstart]
  simp only [orFault_ok, ok_bind]
  rw [← bind_assoc]
  cases hread : readRules pattern with
  | error refusal =>
      rw [hread] at hends
      have hread' : _ = Except.error (CompileError.pattern refusal.error) := hends
      rw [hread']
      rfl
  | ok rules =>
      rw [hread] at hends
      obtain ⟨b, hread', hrules⟩ := hends
      have hbuilt : Assembly.ofRules? rules = .ok ⟨b.arena, start, b.fragments⟩ := by
        unfold Assembly.ofRules? buildRules
        simp only [Store.alloc, halloc, hrules, ok_bind]
        rfl
      have hassembly : assemblyOf rules = .ok ⟨b.arena, start, b.fragments⟩ := by
        unfold assemblyOf
        rw [hbuilt]
        rfl
      rw [hread']
      exact hassembly.symm

end LineScan
