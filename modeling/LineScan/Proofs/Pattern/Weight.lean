/-
  LineScan.Proofs.Pattern.Weight
  ──────────────────────────────
  **A TOKEN PAYS FOR TWO SLOTS.**

  The weight of what has been read is the number of slots that building it
  will ask for.  A part that is not an expression yet weighs what it will add
  to one:

      `^`           the node that consumes the line feed          1
      alternatives  the fork and the join with the one to come    2
      a class       its two nodes, as soon as it is opened        2
      `$`           the new exit, and the link of the next rule   2

  Reading a token adds at most two to the weight (`step_weight`), whatever the
  token and wherever it stands.  What is left for the end of the text is the
  link of a last rule without `$`, so a pattern asks for at most two slots for
  each token and one besides (`allocationsOf_le_of_complete`).
-/
import LineScan.Proofs.Nfa.Recording
import LineScan.Proofs.Pattern.ClassEntries

namespace LineScan

/-! ## §1. The weight of what has been read. -/

/-- The weight of the alternatives before the one being read. -/
def Branch.altsWeight : Option Regex → Nat
  | none => 0
  | some alts => alts.allocations + 2

/-- The weight of the factors of the alternative being read. -/
def Branch.catWeight : Option Regex → Nat
  | none => 0
  | some cat => cat.allocations

/-- The weight of a level of alternatives. -/
def Branch.weight (b : Branch) : Nat := altsWeight b.alts + catWeight b.cat

/-- The weight of what stands before the open groups. -/
def Outer.weight (outer : Outer) : Nat :=
  (if outer.bol then 1 else 0) + (outer.groups.map fun group => group.before.weight).sum

/-- **The weight of a phase.** -/
def Phase.weight : Phase → Nat
  | .ruleStart => 0
  | .operand outer alts => outer.weight + Branch.altsWeight alts
  | .afterTerm outer before term => outer.weight + before.weight + term.allocations
  | .afterFactor outer alts cat => outer.weight + Branch.altsWeight alts + cat.allocations
  | .inBracket outer before _ _ => outer.weight + before.weight + 2
  | .afterDollar rule => rule.allocations + 1

/-- The weight of everything that has been read. -/
def Reader.weight (r : Reader) : Nat := allocationsOf r.rules + r.phase.weight

@[simp] theorem Branch.allocations_join_alt (before : Option Regex) (r : Regex) :
    (Branch.join .alt before r).allocations = altsWeight before + r.allocations := by
  cases before with
  | none => exact (Nat.zero_add _).symm
  | some l =>
      show l.allocations + r.allocations + 2 = l.allocations + 2 + r.allocations
      omega

@[simp] theorem Branch.allocations_join_cat (before : Option Regex) (r : Regex) :
    (Branch.join .cat before r).allocations = catWeight before + r.allocations := by
  cases before with
  | none => exact (Nat.zero_add _).symm
  | some l => rfl

@[simp] theorem Outer.weight_cons (bol : Bool) (group : Group) (groups : List Group) :
    Outer.weight ⟨bol, group :: groups⟩ = group.before.weight + Outer.weight ⟨bol, groups⟩ := by
  simp only [Outer.weight, List.map_cons, List.sum_cons]
  omega

@[simp] theorem allocationsOf_append (rules more : List Rule) :
    allocationsOf (rules ++ more) = allocationsOf rules + allocationsOf more := by
  simp [allocationsOf]

theorem allocationsOf_singleton (rule : Rule) : allocationsOf [rule] = rule.allocations + 1 := rfl

/-- A quantifier adds two slots. -/
theorem Phase.allocations_quantifier {k : Kind} {q : Regex → Regex} (h : quantifier? k = some q)
    (r : Regex) : (q r).allocations = r.allocations + 2 := by
  unfold quantifier? at h
  split at h <;> cases h <;> rfl

/-- **What comes of a step, if it succeeds, weighs at most this much.** -/
def AtMost (limit : Nat) {ε α : Type} (weight : α → Nat) : Except ε α → Prop
  | .error _ => True
  | .ok x => weight x ≤ limit

theorem AtMost.mono {limit limit' : Nat} {ε α : Type} {weight : α → Nat} {x : Except ε α}
    (h : AtMost limit weight x) (hle : limit ≤ limit') : AtMost limit' weight x := by
  cases x with
  | error e => trivial
  | ok x => exact Nat.le_trans h hle

/-! ## §2. One token. -/

namespace Phase

variable {outer : Outer} {before : Branch} {alts : Option Regex} {cat term : Regex} {t : Token}

theorem beginFactor_weight :
    AtMost (outer.weight + before.weight + 2) weight (beginFactor outer before t) := by
  unfold beginFactor
  cases t.kind
  case star | plus | questionMark | rightBracket | caret | rightParen | dollar | pipe => trivial
  case leftParen =>
    -- the branch before the group is put aside with it, and nothing is added
    obtain ⟨bol, groups⟩ := outer
    show Outer.weight ⟨bol, _ :: groups⟩ + 0 ≤ Outer.weight ⟨bol, groups⟩ + before.weight + 2
    simp only [Outer.weight_cons]
    omega
  case leftBracket => exact Nat.le_refl _
  case dot | dash | literal => exact Nat.le_refl _

theorem afterFactorStep_weight :
    AtMost (outer.weight + Branch.altsWeight alts + cat.allocations + 2) weight
      (afterFactorStep outer alts cat t) := by
  have hbegin : AtMost (outer.weight + Branch.altsWeight alts + cat.allocations + 2) weight
      (beginFactor outer ⟨alts, some cat⟩ t) := by
    have h : AtMost (outer.weight + Branch.weight ⟨alts, some cat⟩ + 2) weight
        (beginFactor outer ⟨alts, some cat⟩ t) := beginFactor_weight
    rwa [Branch.weight, ← Nat.add_assoc] at h
  obtain ⟨bol, groups⟩ := outer
  unfold afterFactorStep
  split
  · -- a fork and a join will be needed for the alternative that begins
    show Outer.weight ⟨bol, groups⟩ + ((Branch.join .alt alts cat).allocations + 2) ≤ _
    rw [Branch.allocations_join_alt]
    omega
  · cases groups with
    | nil => trivial
    | cons group groups =>
        show Outer.weight ⟨bol, groups⟩ + group.before.weight +
          (Branch.join .alt alts cat).allocations ≤ _
        rw [Branch.allocations_join_alt, Outer.weight_cons]
        omega
  · cases groups with
    | nil =>
        show (if bol then 1 else 0) + (Branch.join .alt alts cat).allocations + 1 + 1 ≤
          (if bol then 1 else 0) + 0 + _ + _ + 2
        rw [Branch.allocations_join_alt]
        omega
    | cons group groups => trivial
  · exact hbegin

theorem afterTermStep_weight :
    AtMost (outer.weight + before.weight + term.allocations + 2) weight
      (afterTermStep outer before term t) := by
  unfold afterTermStep
  split
  · next q hq =>
      show outer.weight + Branch.altsWeight before.alts +
        (Branch.join .cat before.cat (q term)).allocations ≤ _
      rw [Branch.allocations_join_cat, allocations_quantifier hq, Branch.weight]
      omega
  · have h : AtMost (outer.weight + Branch.altsWeight before.alts +
        (Branch.join .cat before.cat term).allocations + 2) weight
        (afterFactorStep outer before.alts (Branch.join .cat before.cat term) t) :=
      afterFactorStep_weight
    rwa [Branch.allocations_join_cat, ← Nat.add_assoc,
      Nat.add_assoc outer.weight (Branch.altsWeight before.alts)] at h

theorem bracketStep_weight {openedAt : Nat} {bracket : Bracket} :
    AtMost (outer.weight + before.weight + 2) weight
      (bracketStep outer before openedAt bracket t) := by
  unfold bracketStep
  split
  · trivial
  · exact Nat.le_refl _
  · exact Nat.le_refl _

theorem ruleStartStep_weight : AtMost 2 weight (ruleStartStep t) := by
  unfold ruleStartStep
  split
  · exact Nat.le_succ 1
  · exact beginFactor_weight

end Phase

namespace Reader

variable {r r' : Reader} {t : Token}

theorem enter_weight {rules : List Rule} {limit : Nat} {phase : Phase}
    {x : Except SyntaxError Phase} (h : AtMost limit Phase.weight x) :
    AtMost (allocationsOf rules + limit) Reader.weight (enter ⟨rules, phase⟩ x) := by
  cases x with
  | error e => trivial
  | ok phase => exact Nat.add_le_add_left h _

/-- **One token** adds at most two. -/
theorem step_weight (r : Reader) (t : Token) : AtMost (r.weight + 2) Reader.weight (r.step t) := by
  obtain ⟨rules, phase⟩ := r
  show AtMost (allocationsOf rules + phase.weight + 2) _ _
  rw [Nat.add_assoc]
  cases phase with
  | ruleStart => exact enter_weight Phase.ruleStartStep_weight
  | operand outer alts =>
      have h : AtMost (outer.weight + Branch.weight ⟨alts, none⟩ + 2) Phase.weight
          (Phase.beginFactor outer ⟨alts, none⟩ t) := Phase.beginFactor_weight
      exact enter_weight h
  | afterTerm outer before term => exact enter_weight Phase.afterTermStep_weight
  | afterFactor outer alts cat => exact enter_weight Phase.afterFactorStep_weight
  | inBracket outer before openedAt bracket =>
      exact enter_weight (Phase.bracketStep_weight.mono (Nat.le_add_right _ 2))
  | afterDollar rule =>
      unfold step
      simp only
      split
      · trivial
      · -- the rule is complete, and weighs what it will ask for
        show AtMost (allocationsOf rules + (allocationsOf [rule] + 2)) _ _
        rw [← Nat.add_assoc, ← allocationsOf_append]
        exact enter_weight Phase.ruleStartStep_weight

/-! ## §3. A whole text. -/

/-- A rule that ends with its last factor still needs its link. -/
theorem close_weight {rules : List Rule} {phase : Phase} (outer : Outer) (body : Regex) :
    AtMost (allocationsOf rules + (outer.weight + body.allocations) + 1) allocationsOf
      (close ⟨rules, phase⟩ outer body) := by
  obtain ⟨bol, groups⟩ := outer
  cases groups with
  | nil =>
      show allocationsOf (rules ++ [⟨bol, body, false⟩]) ≤ _
      rw [allocationsOf_append, allocationsOf_singleton]
      show _ + ((if bol then 1 else 0) + body.allocations + 0 + 1) ≤
        _ + ((if bol then 1 else 0) + 0 + body.allocations) + 1
      omega
  | cons group groups => trivial

/-- **The end of the text** adds at most one. -/
theorem finish_weight (r : Reader) (stop : Nat) :
    AtMost (r.weight + 1) allocationsOf (r.finish stop) := by
  obtain ⟨rules, phase⟩ := r
  cases phase with
  | ruleStart | operand | inBracket => trivial
  | afterTerm outer before term =>
      have h : AtMost (allocationsOf rules + (outer.weight +
          (Branch.join .alt before.alts (Branch.join .cat before.cat term)).allocations) + 1)
          allocationsOf (finish ⟨rules, .afterTerm outer before term⟩ stop) :=
        close_weight outer _
      rwa [Branch.allocations_join_alt, Branch.allocations_join_cat, ← Nat.add_assoc
        (Branch.altsWeight _), ← Nat.add_assoc outer.weight] at h
  | afterFactor outer alts cat =>
      have h : AtMost (allocationsOf rules + (outer.weight +
          (Branch.join .alt alts cat).allocations) + 1)
          allocationsOf (finish ⟨rules, .afterFactor outer alts cat⟩ stop) :=
        close_weight outer _
      rwa [Branch.allocations_join_alt, ← Nat.add_assoc outer.weight] at h
  | afterDollar rule =>
      show allocationsOf (rules ++ [rule]) ≤ allocationsOf rules + (rule.allocations + 1) + 1
      rw [allocationsOf_append, allocationsOf_singleton]
      omega

/-- **The rules of a text** ask for at most two slots for each item that is
left, and one besides. -/
theorem allocationsOf_le_of_complete {r : Reader} {stop : Nat} {items : List Item}
    {rules : List Rule} (h : r.complete stop items = .ok rules) :
    allocationsOf rules ≤ r.weight + 2 * items.length + 1 := by
  induction items generalizing r with
  | nil =>
      have hend := r.finish_weight stop
      have hfinish : r.finish stop = .ok rules := h
      rwa [hfinish] at hend
  | cons item items ih =>
      cases item with
      | foreign b p => cases h
      | token t =>
          have hstep := r.step_weight t
          cases hnext : r.step t with
          | error refusal =>
              rw [complete_refused hnext] at h
              cases h
          | ok next =>
              rw [hnext] at hstep
              rw [complete_cons hnext] at h
              have hrest := ih h
              have hnext : next.weight ≤ r.weight + 2 := hstep
              rw [List.length_cons]
              omega

end Reader

end LineScan
