/-
  LineScan.Proofs.Plain.Tracking
  ──────────────────────────────
  **THE BUILDER KEEPS UP WITH THE READER.**

  `Tracks a p p' b`: the reader is in phase `p` of a rule, and `p'` and `b`
  are what building the expressions that it holds back makes of the arena `a`
  in which the rule began, each from the arena that the one before has left,
  the outermost first.  Every step of the builder puts the last of these
  expressions together, just as building the whole afterwards would.

  Hence the builder needs no invariant about slots of its own: building an
  expression never fails, and each step is the end of such a building.
-/
import LineScan.Proofs.Plain.Builder

namespace LineScan

/-! ## §1. Building what is held back. -/

theorem Regex.consistent_of_build {r : Regex} {f : Fragment} {a b : Arena} (ha : a.Consistent)
    (h : r.build a = .ok (f, b)) : b.Consistent := by
  obtain ⟨f', b', S, h', hf⟩ := r.exists_build ha
  rw [h] at h'
  cases h'
  exact hf.consistent

/-- Building an expression that may be absent. -/
inductive OptionBuilt : Option Regex → Option Fragment → Arena → Arena → Prop
  /-- Nothing is built. -/
  | none {a : Arena} : OptionBuilt none none a a
  /-- An expression is built. -/
  | some {r : Regex} {f : Fragment} {a b : Arena} (h : r.build a = .ok (f, b)) :
      OptionBuilt (some r) (some f) a b

/-- Building the parts of a level, the finished alternatives first. -/
def BranchBuilt (x : Branch) (y : BuiltBranch) (a b : Arena) : Prop :=
  ∃ c, OptionBuilt x.alts y.alts a c ∧ OptionBuilt x.cat y.cat c b

/-- Building the parts before open groups, the outermost first. -/
inductive GroupsBuilt : List Group → List BuiltGroup → Arena → Arena → Prop
  /-- No group is open. -/
  | nil {a : Arena} : GroupsBuilt [] [] a a
  /-- The innermost group comes last. -/
  | cons {groups : List Group} {built : List BuiltGroup} {x : Branch} {y : BuiltBranch}
      {a b c : Arena} (openedAt : Nat) (hgroups : GroupsBuilt groups built a b)
      (hbefore : BranchBuilt x y b c) :
      GroupsBuilt (⟨openedAt, x⟩ :: groups) (⟨openedAt, y⟩ :: built) a c

/-- Building the node that consumes a line feed, if the rule has one. -/
inductive LineStartBuilt : Bool → Option Nat → Arena → Arena → Prop
  /-- The rule may begin anywhere. -/
  | none {a : Arena} : LineStartBuilt false none a a
  /-- The rule must begin a line. -/
  | some {first : Nat} {a b c : Arena} (halloc : a.alloc = (first, b))
      (hedge : b.setEdge first (.byte Symbol.lineFeed.toByte) = .ok c) :
      LineStartBuilt true (some first) a c

/-- Building the surroundings of a level. -/
def OuterBuilt (x : Outer) (y : BuiltOuter) (a b : Arena) : Prop :=
  ∃ c, LineStartBuilt x.bol y.bol a c ∧ GroupsBuilt x.groups y.groups c b

section Consistent

variable {a b : Arena}

theorem OptionBuilt.consistent {x : Option Regex} {y : Option Fragment}
    (h : OptionBuilt x y a b) (ha : a.Consistent) : b.Consistent := by
  cases h with
  | none => exact ha
  | some h => exact Regex.consistent_of_build ha h

theorem BranchBuilt.consistent {x : Branch} {y : BuiltBranch} (h : BranchBuilt x y a b)
    (ha : a.Consistent) : b.Consistent := by
  obtain ⟨c, halts, hcat⟩ := h
  exact hcat.consistent (halts.consistent ha)

theorem GroupsBuilt.consistent {x : List Group} {y : List BuiltGroup} (h : GroupsBuilt x y a b)
    (ha : a.Consistent) : b.Consistent := by
  induction h with
  | nil => exact ha
  | cons openedAt _ hbefore ih => exact hbefore.consistent (ih ha)

theorem LineStartBuilt.consistent {x : Bool} {y : Option Nat} (h : LineStartBuilt x y a b)
    (ha : a.Consistent) : b.Consistent := by
  cases h with
  | none => exact ha
  | some halloc hedge =>
      obtain ⟨i, c, h, hc, _, hg⟩ := Arena.exists_alloc ha
      rw [halloc] at h
      cases h
      obtain ⟨d, h, hd, _⟩ := Arena.exists_setEdge hc (by rw [hg, Function.update_self])
        (.byte Symbol.lineFeed.toByte)
      rw [hedge] at h
      cases h
      exact hd

theorem OuterBuilt.consistent {x : Outer} {y : BuiltOuter} (h : OuterBuilt x y a b)
    (ha : a.Consistent) : b.Consistent := by
  obtain ⟨c, hbol, hgroups⟩ := h
  exact hgroups.consistent (hbol.consistent ha)

end Consistent

/-! ## §2. Putting expressions together. -/

section Join

variable {a b c : Arena} {f : Fragment} {r : Regex}

/-- Splicing is the end of building a concatenation. -/
theorem exists_joinCat? {before : Option Regex} {built : Option Fragment} (ha : a.Consistent)
    (hbefore : OptionBuilt before built a b) (hr : r.build b = .ok (f, c)) :
    ∃ g d, Fragment.joinCat? built f c = .ok (g, d) ∧
      (Branch.join .cat before r).build a = .ok (g, d) := by
  cases hbefore with
  | none => exact ⟨f, c, rfl, hr⟩
  | @some l x _ _ hl =>
      obtain ⟨g, d, S, hcat, _⟩ := (Regex.cat l r).exists_build ha
      refine ⟨g, d, ?_, hcat⟩
      rw [Regex.build, hl, ok_bind] at hcat
      change (r.build b >>= _) = _ at hcat
      rw [hr, ok_bind] at hcat
      exact hcat

/-- Forking is the end of building an alternative. -/
theorem exists_joinAlt? {before : Option Regex} {built : Option Fragment} (ha : a.Consistent)
    (hbefore : OptionBuilt before built a b) (hr : r.build b = .ok (f, c)) :
    ∃ g d, Fragment.joinAlt? built f c = .ok (g, d) ∧
      (Branch.join .alt before r).build a = .ok (g, d) := by
  cases hbefore with
  | none => exact ⟨f, c, rfl, hr⟩
  | @some l x _ _ hl =>
      obtain ⟨g, d, S, halt, _⟩ := (Regex.alt l r).exists_build ha
      refine ⟨g, d, ?_, halt⟩
      have hc : c.Consistent := Regex.consistent_of_build (Regex.consistent_of_build ha hl) hr
      rw [Regex.build, hl, ok_bind] at halt
      change (r.build b >>= _) = _ at halt
      rw [hr, ok_bind] at halt
      exact (Fragment.either?_eq_either hc x f).trans halt

/-- Enclosing is the end of building what a quantifier makes of a term. -/
theorem exists_enclose? {k : Kind} {skips repeats : Bool} (ha : a.Consistent)
    (hk : BuiltPhase.quantifier? k = some (skips, repeats)) (hr : r.build a = .ok (f, b)) :
    ∃ q g d, Phase.quantifier? k = some q ∧ f.enclose? skips repeats b = .ok (g, d) ∧
      (q r).build a = .ok (g, d) := by
  have hb : b.Consistent := Regex.consistent_of_build ha hr
  have henclose : ∀ q : Regex → Regex,
      (q r).build a = (r.build a >>= fun x => x.1.enclose skips repeats x.2) →
        ∃ g d, f.enclose? skips repeats b = .ok (g, d) ∧ (q r).build a = .ok (g, d) := by
    intro q hq
    obtain ⟨g, d, S, h, _⟩ := (q r).exists_build ha
    refine ⟨g, d, ?_, h⟩
    rw [hq, hr, ok_bind] at h
    exact (Fragment.enclose?_eq_enclose hb f skips repeats).trans h
  cases k with
  | star =>
      cases hk
      obtain ⟨g, d, h⟩ := henclose .star rfl
      exact ⟨_, g, d, rfl, h⟩
  | plus =>
      cases hk
      obtain ⟨g, d, h⟩ := henclose .plus rfl
      exact ⟨_, g, d, rfl, h⟩
  | questionMark =>
      cases hk
      obtain ⟨g, d, h⟩ := henclose .optional rfl
      exact ⟨_, g, d, rfl, h⟩
  | _ => cases hk

theorem quantifier?_eq_none_iff {k : Kind} :
    BuiltPhase.quantifier? k = none ↔ Phase.quantifier? k = none := by
  cases k <;> simp [BuiltPhase.quantifier?, Phase.quantifier?]

/-- Leading into an expression is the end of building it at the start of a
line. -/
theorem exists_startLine? {bol : Bool} {built : Option Nat} (ha : a.Consistent)
    (hbol : LineStartBuilt bol built a b) (hr : r.build b = .ok (f, c)) :
    ∃ g d, Fragment.startLine? built f c = .ok (g, d) ∧ d.Consistent ∧
      (if bol then r.buildAtLineStart a else r.build a) = .ok (g, d) := by
  cases hbol with
  | none => exact ⟨f, c, rfl, Regex.consistent_of_build ha hr, hr⟩
  | @some first _ b' _ halloc hedge =>
      obtain ⟨g, d, S, h, hg, _⟩ := r.exists_buildAtLineStart ha
      refine ⟨g, d, ?_, hg.consistent, h⟩
      simp only [Regex.buildAtLineStart, Store.alloc, halloc, ok_bind] at h
      change (b'.setEdge first _ >>= _) = _ at h
      rw [hedge, ok_bind, hr, ok_bind] at h
      exact h

/-- Labelling a pair of nodes is the end of building a class. -/
theorem exists_setEdge_pair (ha : a.Consistent) (hpair : Fragment.pair? a = .ok (f, b))
    (cls : CharClass) :
    ∃ c, b.setEdge f.first (.cls cls) = .ok c ∧ (Regex.cls cls).build a = .ok (f, c) := by
  obtain ⟨g, c, S, h, _⟩ := (Regex.cls cls).exists_build ha
  have hedge : Fragment.edge? (.cls cls) a = .ok (g, c) :=
    (Fragment.edge?_eq_build ha (.cls cls)).trans h
  unfold Fragment.edge? at hedge
  rw [hpair, ok_bind] at hedge
  obtain ⟨d, hset, hd⟩ := exists_of_bind_eq_ok hedge
  cases hd
  exact ⟨c, hset, h⟩

theorem exists_pair? (ha : a.Consistent) : ∃ f b, Fragment.pair? a = .ok (f, b) := by
  obtain ⟨g, c, S, h, _⟩ := (Regex.cls CharClass.empty).exists_build ha
  have hedge : Fragment.edge? (.cls CharClass.empty) a = .ok (g, c) :=
    (Fragment.edge?_eq_build ha _).trans h
  obtain ⟨r, hpair, _⟩ := exists_of_bind_eq_ok hedge
  exact ⟨r.1, r.2, hpair⟩

end Join

/-! ## §3. One token inside a rule. -/

/-- A rule without the anchor on its exit. -/
def Rule.buildBody (r : Rule) (a : Arena) : Except Fault (Fragment × Arena) :=
  (if r.bol then r.body.buildAtLineStart a else r.body.build a) >>= fun x =>
    if r.eol then x.1.toLineEnd x.2 else pure x

theorem Rule.build_eq (r : Rule) (a : Arena) :
    r.build a = (r.buildBody a >>= fun x =>
      x.2.setAnchor x.1.last r.anchor >>= fun b => pure (x.1, b)) := by
  unfold Rule.build Rule.buildBody
  cases r.bol <;> cases r.eol <;>
    simp only [Store.setAnchor, if_true, Bool.false_eq_true, if_false, bind_assoc]

/-- Consuming a line end is the end of building the body of a rule. -/
theorem exists_toLineEnd? {bol : Bool} {r : Regex} {f : Fragment} {a b : Arena}
    (ha : a.Consistent) (hb : b.Consistent)
    (hr : (if bol then r.buildAtLineStart a else r.build a) = .ok (f, b)) :
    ∃ g c, f.toLineEnd? b = .ok (g, c) ∧ Rule.buildBody ⟨bol, r, true⟩ a = .ok (g, c) := by
  obtain ⟨h, d, S, hrule, _⟩ := Rule.exists_build ⟨bol, r, true⟩ ha
  rw [Rule.build_eq] at hrule
  obtain ⟨x, hbody, _⟩ := exists_of_bind_eq_ok hrule
  refine ⟨x.1, x.2, ?_, hbody⟩
  unfold Rule.buildBody at hbody
  rw [hr, ok_bind, if_pos rfl] at hbody
  exact (Fragment.toLineEnd?_eq_toLineEnd hb f).trans hbody

/-- **What the builder has made of what the reader holds back.** -/
inductive Tracks (a : Arena) : Phase → BuiltPhase → Arena → Prop
  /-- Nothing is held back. -/
  | ruleStart : Tracks a .ruleStart .ruleStart a
  /-- The finished alternatives have been built. -/
  | operand {outer : Outer} {outer' : BuiltOuter} {alts : Option Regex} {alts' : Option Fragment}
      {b c : Arena} (houter : OuterBuilt outer outer' a b) (halts : OptionBuilt alts alts' b c) :
      Tracks a (.operand outer alts) (.operand outer' alts') c
  /-- The term has been built on its own. -/
  | afterTerm {outer : Outer} {outer' : BuiltOuter} {before : Branch} {before' : BuiltBranch}
      {term : Regex} {f : Fragment} {b c d : Arena} (houter : OuterBuilt outer outer' a b)
      (hbefore : BranchBuilt before before' b c) (hterm : term.build c = .ok (f, d)) :
      Tracks a (.afterTerm outer before term) (.afterTerm outer' before' f) d
  /-- The factor has been spliced to those before it. -/
  | afterFactor {outer : Outer} {outer' : BuiltOuter} {alts : Option Regex}
      {alts' : Option Fragment} {cat : Regex} {f : Fragment} {b c d : Arena}
      (houter : OuterBuilt outer outer' a b) (halts : OptionBuilt alts alts' b c)
      (hcat : cat.build c = .ok (f, d)) :
      Tracks a (.afterFactor outer alts cat) (.afterFactor outer' alts' f) d
  /-- The nodes of the class have no edge yet. -/
  | inBracket {outer : Outer} {outer' : BuiltOuter} {before : Branch} {before' : BuiltBranch}
      {f : Fragment} {b c d : Arena} (openedAt : Nat) (bracket : Bracket)
      (houter : OuterBuilt outer outer' a b) (hbefore : BranchBuilt before before' b c)
      (hpair : Fragment.pair? c = .ok (f, d)) :
      Tracks a (.inBracket outer before openedAt bracket)
        (.inBracket outer' before' openedAt f bracket) d
  /-- The rule lacks its anchor. -/
  | afterDollar {rule : Rule} {f : Fragment} {b : Arena} (heol : rule.eol = true)
      (hrule : rule.buildBody a = .ok (f, b)) :
      Tracks a (.afterDollar rule) (.afterDollar rule.bol f) b

/-- The builder goes on as the reader does, or refuses for the same
reason. -/
def Follows (a : Arena) (x : Except SyntaxError Phase)
    (y : Except CompileError (BuiltPhase × Arena)) : Prop :=
  match x with
  | .ok p => ∃ p' b, y = .ok (p', b) ∧ Tracks a p p' b
  | .error e => y = .error (.pattern e)

section Steps

variable {a b c d : Arena} (ha : a.Consistent) (t : Token)
include ha

theorem follows_beginFactor {outer : Outer} {outer' : BuiltOuter} {before : Branch}
    {before' : BuiltBranch} (houter : OuterBuilt outer outer' a b)
    (hbefore : BranchBuilt before before' b c) :
    Follows a (Phase.beginFactor outer before t) (BuiltPhase.beginFactor? outer' before' t c) := by
  have hc : c.Consistent := hbefore.consistent (houter.consistent ha)
  have hterm : ∀ (r : Regex) (edge : Edge), r.build c = edge.build c →
      ∃ f d, Fragment.edge? edge c = .ok (f, d) ∧ r.build c = .ok (f, d) := by
    intro r edge hr
    obtain ⟨f, d, S, h, _⟩ := r.exists_build hc
    exact ⟨f, d, (Fragment.edge?_eq_build hc edge).trans (hr.symm.trans h), h⟩
  unfold Phase.beginFactor BuiltPhase.beginFactor?
  cases t.kind with
  | leftParen =>
      obtain ⟨b', hbol, hgroups⟩ := houter
      exact ⟨_, _, rfl, .operand ⟨b', hbol, .cons t.position hgroups hbefore⟩ .none⟩
  | leftBracket =>
      obtain ⟨f, d, hpair⟩ := exists_pair? hc
      refine ⟨_, d, ?_, .inBracket t.position .opened houter hbefore hpair⟩
      simp only [hpair, orFault_ok, ok_bind]
      rfl
  | dot =>
      obtain ⟨f, d, hedge, hbuild⟩ := hterm (.cls CharClass.dot) (.cls CharClass.dot) rfl
      refine ⟨_, d, ?_, .afterTerm houter hbefore hbuild⟩
      have hdot : CharClass.ofLineEnds? true = .ok CharClass.dot := CharClass.ofLineEnds?_eq true
      simp only [hdot, hedge, orFault_ok, ok_bind]
      rfl
  | dash =>
      obtain ⟨f, d, hedge, hbuild⟩ := hterm (.symbol t.symbol) (.byte t.symbol.toByte) rfl
      refine ⟨_, d, ?_, .afterTerm houter hbefore hbuild⟩
      simp only [hedge, orFault_ok, ok_bind]
      rfl
  | literal =>
      obtain ⟨f, d, hedge, hbuild⟩ := hterm (.symbol t.symbol) (.byte t.symbol.toByte) rfl
      refine ⟨_, d, ?_, .afterTerm houter hbefore hbuild⟩
      simp only [hedge, orFault_ok, ok_bind]
      rfl
  | _ => exact rfl

theorem follows_afterFactorStep {outer : Outer} {outer' : BuiltOuter} {alts : Option Regex}
    {alts' : Option Fragment} {cat : Regex} {f : Fragment} (houter : OuterBuilt outer outer' a b)
    (halts : OptionBuilt alts alts' b c) (hcat : cat.build c = .ok (f, d)) :
    Follows a (Phase.afterFactorStep outer alts cat t)
      (BuiltPhase.afterFactorStep? outer' alts' f t d) := by
  obtain ⟨g, e, hjoin, hbuild⟩ := exists_joinAlt? (houter.consistent ha) halts hcat
  have hbranch : BranchBuilt ⟨alts, some cat⟩ ⟨alts', some f⟩ b d := ⟨c, halts, .some hcat⟩
  have hbegin := follows_beginFactor ha t houter hbranch
  unfold Phase.afterFactorStep BuiltPhase.afterFactorStep?
  cases t.kind with
  | pipe =>
      refine ⟨_, e, ?_, .operand houter (.some hbuild)⟩
      simp only [hjoin, orFault_ok, ok_bind]
      rfl
  | rightParen =>
      obtain ⟨bol, groups⟩ := outer
      obtain ⟨bol', groups'⟩ := outer'
      obtain ⟨b₀, hbol, hgroups⟩ := houter
      cases hgroups with
      | nil =>
          obtain ⟨h, i, hstart, _⟩ := exists_startLine? ha hbol hbuild
          simp only [hjoin, hstart, orFault_ok, ok_bind]
          rfl
      | @cons groups built x y _ b₁ _ openedAt hgroups hbefore =>
          have houter : OuterBuilt ⟨bol, groups⟩ ⟨bol', built⟩ a b₁ := ⟨b₀, hbol, hgroups⟩
          refine ⟨_, e, ?_, .afterTerm houter hbefore hbuild⟩
          simp only [hjoin, orFault_ok, ok_bind]
          rfl
  | dollar =>
      obtain ⟨bol, groups⟩ := outer
      obtain ⟨bol', groups'⟩ := outer'
      obtain ⟨b₀, hbol, hgroups⟩ := houter
      cases hgroups with
      | nil =>
          obtain ⟨h, i, hstart, hi, hbody⟩ := exists_startLine? ha hbol hbuild
          obtain ⟨k, j, hends, hrule⟩ := exists_toLineEnd? ha hi hbody
          have hisSome : bol'.isSome = bol := by
            cases hbol <;> rfl
          refine ⟨_, j, ?_, .afterDollar rfl hrule⟩
          simp only [hjoin, hstart, hends, orFault_ok, ok_bind, hisSome]
          rfl
      | cons openedAt hgroups hbefore =>
          simp only [hjoin, orFault_ok, ok_bind]
          rfl
  | _ => exact hbegin

theorem follows_afterTermStep {outer : Outer} {outer' : BuiltOuter} {before : Branch}
    {before' : BuiltBranch} {term : Regex} {f : Fragment} (houter : OuterBuilt outer outer' a b)
    (hbefore : BranchBuilt before before' b c) (hterm : term.build c = .ok (f, d)) :
    Follows a (Phase.afterTermStep outer before term t)
      (BuiltPhase.afterTermStep? outer' before' f t d) := by
  have hc : c.Consistent := hbefore.consistent (houter.consistent ha)
  obtain ⟨b', halts, hcat⟩ := hbefore
  have hb' : b'.Consistent := halts.consistent (houter.consistent ha)
  unfold Phase.afterTermStep BuiltPhase.afterTermStep?
  cases hk : BuiltPhase.quantifier? t.kind with
  | none =>
      obtain ⟨g, e, hjoin, hbuild⟩ := exists_joinCat? hb' hcat hterm
      rw [quantifier?_eq_none_iff.1 hk]
      simp only [hjoin, orFault_ok, ok_bind]
      exact follows_afterFactorStep ha t houter halts hbuild
  | some ways =>
      obtain ⟨q, g, e, hq, henclose, hbuild⟩ := exists_enclose? hc hk hterm
      obtain ⟨h, i, hjoin, hbuild'⟩ := exists_joinCat? hb' hcat hbuild
      rw [hq]
      refine ⟨_, i, ?_, .afterFactor houter halts hbuild'⟩
      simp only [henclose, hjoin, orFault_ok, ok_bind]
      rfl

theorem follows_bracketStep {outer : Outer} {outer' : BuiltOuter} {before : Branch}
    {before' : BuiltBranch} {f : Fragment} (openedAt : Nat) (bracket : Bracket)
    (houter : OuterBuilt outer outer' a b) (hbefore : BranchBuilt before before' b c)
    (hpair : Fragment.pair? c = .ok (f, d)) :
    Follows a (Phase.bracketStep outer before openedAt bracket t)
      (BuiltPhase.bracketStep? outer' before' openedAt f bracket t d) := by
  have hc : c.Consistent := hbefore.consistent (houter.consistent ha)
  unfold Phase.bracketStep BuiltPhase.bracketStep?
  rw [Bracket.step?_eq]
  cases bracket.step t with
  | error e => exact rfl
  | ok outcome =>
      cases outcome with
      | more bracket => exact ⟨_, d, rfl, .inBracket openedAt bracket houter hbefore hpair⟩
      | closed cls =>
          obtain ⟨e, hset, hbuild⟩ := exists_setEdge_pair hc hpair cls
          refine ⟨_, e, ?_, .afterTerm houter hbefore hbuild⟩
          show (orFault (d.setEdge f.first (.cls cls)) >>= _) = _
          rw [hset, orFault_ok, ok_bind]
          rfl

theorem follows_ruleStartStep :
    Follows a (Phase.ruleStartStep t) (BuiltPhase.ruleStartStep? t a) := by
  unfold Phase.ruleStartStep BuiltPhase.ruleStartStep?
  by_cases hcaret : t.kind = .caret
  · rw [if_pos hcaret, if_pos hcaret]
    obtain ⟨i, b, halloc, hb, _, hg⟩ := Arena.exists_alloc ha
    obtain ⟨c, hedge, _⟩ := Arena.exists_setEdge hb (by rw [hg, Function.update_self])
      (.byte Symbol.lineFeed.toByte)
    have houter : OuterBuilt ⟨true, []⟩ ⟨some i, []⟩ a c := ⟨c, .some halloc hedge, .nil⟩
    refine ⟨_, c, ?_, .operand houter .none⟩
    rw [Arena.alloc?_eq_alloc ha, halloc]
    simp only [hedge, orFault_ok, ok_bind]
    rfl
  · rw [if_neg hcaret, if_neg hcaret]
    have houter : OuterBuilt ⟨false, []⟩ ⟨none, []⟩ a a := ⟨a, .none, .nil⟩
    have hbranch : BranchBuilt Branch.empty ⟨none, none⟩ a a := ⟨a, .none, .none⟩
    exact follows_beginFactor ha t houter hbranch

end Steps

end LineScan
