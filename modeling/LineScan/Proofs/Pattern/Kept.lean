/-
  LineScan.Proofs.Pattern.Kept
  ────────────────────────────
  **NO CLASS IS LOST ON THE WAY TO THE RULES.**

  A class that has been read is part of an expression, and that expression
  becomes part of larger ones: a factor, an alternative, what stands before a
  group, a rule.  The classes of a phase are those of all expressions it
  holds.  One token adds to them and never takes one away (`step_keeps`), so
  whatever the reader holds at some point is in the rules that it ends with
  (`classes_subset_of_complete`).
-/
import LineScan.Proofs.Pattern.ClassEntries

namespace LineScan

/-! ## §1. The classes of what has been read. -/

/-- The classes in an expression. -/
def Regex.classes : Regex → List CharClass
  | .symbol _ => []
  | .cls c => [c]
  | .cat first second => first.classes ++ second.classes
  | .alt left right => left.classes ++ right.classes
  | .star body | .plus body | .optional body => body.classes

/-- The classes of an expression that may be missing. -/
def optionClasses (r : Option Regex) : List CharClass := r.toList.flatMap Regex.classes

/-- The classes on a level of alternatives. -/
def Branch.classes (b : Branch) : List CharClass := optionClasses b.alts ++ optionClasses b.cat

/-- The classes before the open groups. -/
def Outer.classes (outer : Outer) : List CharClass :=
  outer.groups.flatMap fun group => group.before.classes

/-- **The classes that a phase holds.** -/
def Phase.classes : Phase → List CharClass
  | .ruleStart => []
  | .operand outer alts => outer.classes ++ optionClasses alts
  | .afterTerm outer before term => outer.classes ++ before.classes ++ term.classes
  | .afterFactor outer alts cat => outer.classes ++ optionClasses alts ++ cat.classes
  | .inBracket outer before _ _ => outer.classes ++ before.classes
  | .afterDollar rule => rule.body.classes

/-- The classes of some rules. -/
def classesOf (rules : List Rule) : List CharClass := rules.flatMap fun rule => rule.body.classes

/-- The classes of everything that has been read. -/
def Reader.classes (r : Reader) : List CharClass := classesOf r.rules ++ r.phase.classes

@[simp] theorem classesOf_append (rules more : List Rule) :
    classesOf (rules ++ more) = classesOf rules ++ classesOf more := by
  simp [classesOf]

@[simp] theorem classesOf_singleton (rule : Rule) : classesOf [rule] = rule.body.classes := by
  simp [classesOf]

@[simp] theorem optionClasses_none : optionClasses none = [] := rfl

@[simp] theorem optionClasses_some (r : Regex) : optionClasses (some r) = r.classes := by
  simp [optionClasses]

@[simp] theorem Branch.classes_join_cat (before : Option Regex) (r : Regex) :
    (Branch.join .cat before r).classes = optionClasses before ++ r.classes := by
  cases before <;> simp [Branch.join, Regex.classes]

@[simp] theorem Branch.classes_join_alt (before : Option Regex) (r : Regex) :
    (Branch.join .alt before r).classes = optionClasses before ++ r.classes := by
  cases before <;> simp [Branch.join, Regex.classes]

@[simp] theorem Outer.classes_nil (bol : Bool) : Outer.classes ⟨bol, []⟩ = [] := rfl

@[simp] theorem Outer.classes_cons (bol : Bool) (group : Group) (groups : List Group) :
    Outer.classes ⟨bol, group :: groups⟩ = group.before.classes ++ Outer.classes ⟨bol, groups⟩ :=
  rfl

/-- A quantifier leaves the classes as they are. -/
theorem Phase.classes_quantifier {k : Kind} {q : Regex → Regex} (h : quantifier? k = some q)
    (r : Regex) : (q r).classes = r.classes := by
  unfold quantifier? at h
  split at h <;> cases h <;> rfl

/-- **What comes of a step, if it succeeds, has the known classes.** -/
def Keeps (known : List CharClass) {ε α : Type} (classes : α → List CharClass) :
    Except ε α → Prop
  | .error _ => True
  | .ok x => known ⊆ classes x

/-! ## §2. One token. -/

namespace Phase

variable {outer : Outer} {before : Branch} {alts : Option Regex} {cat term : Regex} {t : Token}

theorem beginFactor_keeps :
    Keeps (outer.classes ++ before.classes) classes (beginFactor outer before t) := by
  unfold beginFactor
  cases t.kind
  case star | plus | questionMark | rightBracket | caret | rightParen | dollar | pipe => trivial
  case leftParen =>
    -- the branch before the group is put aside with it
    intro c hc
    obtain ⟨bol, groups⟩ := outer
    simp only [classes, Outer.classes_cons, optionClasses_none, List.mem_append,
      List.not_mem_nil, or_false] at hc ⊢
    exact hc.symm
  case leftBracket => exact List.Subset.refl _
  case dot | dash | literal => exact List.subset_append_left _ _

theorem afterFactorStep_keeps :
    Keeps (outer.classes ++ optionClasses alts ++ cat.classes) classes
      (afterFactorStep outer alts cat t) := by
  have hbegin : Keeps (outer.classes ++ optionClasses alts ++ cat.classes) classes
      (beginFactor outer ⟨alts, some cat⟩ t) := by
    have h : Keeps (outer.classes ++ Branch.classes ⟨alts, some cat⟩) classes
        (beginFactor outer ⟨alts, some cat⟩ t) := beginFactor_keeps
    rwa [Branch.classes, optionClasses_some, ← List.append_assoc] at h
  obtain ⟨bol, groups⟩ := outer
  unfold afterFactorStep
  split
  · -- the alternative is joined to those before it
    intro c hc
    simpa [classes] using hc
  · cases groups with
    | nil => trivial
    | cons group groups =>
        intro c hc
        simp only [classes, Outer.classes_cons, Branch.classes_join_alt, List.mem_append] at hc ⊢
        tauto
  · cases groups with
    | nil =>
        intro c hc
        simpa [classes] using hc
    | cons group groups => trivial
  · exact hbegin

theorem afterTermStep_keeps :
    Keeps (outer.classes ++ before.classes ++ term.classes) classes
      (afterTermStep outer before term t) := by
  have hjoined : ∀ r : Regex, r.classes = term.classes →
      outer.classes ++ before.classes ++ term.classes =
        outer.classes ++ optionClasses before.alts ++
          (Branch.join .cat before.cat r).classes := by
    intro r hr
    rw [Branch.classes_join_cat, hr, Branch.classes]
    simp only [List.append_assoc]
  unfold afterTermStep
  split
  · next q hq =>
      rw [hjoined (q term) (classes_quantifier hq term)]
      exact List.Subset.refl _
  · rw [hjoined term rfl]
    exact afterFactorStep_keeps

theorem bracketStep_keeps {openedAt : Nat} {bracket : Bracket} :
    Keeps (outer.classes ++ before.classes) classes
      (bracketStep outer before openedAt bracket t) := by
  unfold bracketStep
  split
  · trivial
  · exact List.Subset.refl _
  · exact List.subset_append_left _ _

end Phase

namespace Reader

variable {r r' : Reader} {t : Token}

theorem enter_keeps {rules : List Rule} {known : List CharClass} {phase : Phase}
    {x : Except SyntaxError Phase} (h : Keeps known Phase.classes x) :
    Keeps (classesOf rules ++ known) Reader.classes (enter ⟨rules, phase⟩ x) := by
  cases x with
  | error e => trivial
  | ok phase =>
      intro c hc
      rcases List.mem_append.1 hc with hc | hc
      · exact List.mem_append_left _ hc
      · exact List.mem_append_right _ (h hc)

theorem ruleStart_keeps {rules : List Rule} {phase : Phase} :
    Keeps (classesOf rules) Reader.classes (enter ⟨rules, phase⟩ (Phase.ruleStartStep t)) := by
  cases Phase.ruleStartStep t with
  | error e => trivial
  | ok phase => exact List.subset_append_left _ _

/-- **One token** takes no class away. -/
theorem step_keeps (r : Reader) (t : Token) : Keeps r.classes Reader.classes (r.step t) := by
  obtain ⟨rules, phase⟩ := r
  cases phase with
  | ruleStart =>
      show Keeps (classesOf rules ++ []) _ _
      rw [List.append_nil]
      exact ruleStart_keeps
  | operand outer alts =>
      have h : Keeps (outer.classes ++ Branch.classes ⟨alts, none⟩) Phase.classes
          (Phase.beginFactor outer ⟨alts, none⟩ t) := Phase.beginFactor_keeps
      rw [Branch.classes, optionClasses_none, List.append_nil] at h
      exact enter_keeps h
  | afterTerm outer before term => exact enter_keeps Phase.afterTermStep_keeps
  | afterFactor outer alts cat => exact enter_keeps Phase.afterFactorStep_keeps
  | inBracket outer before openedAt bracket => exact enter_keeps Phase.bracketStep_keeps
  | afterDollar rule =>
      unfold step
      simp only
      split
      · trivial
      · -- the rule is complete, and its classes are those of the rules now
        show Keeps (classesOf rules ++ rule.body.classes) _ _
        rw [← classesOf_singleton, ← classesOf_append]
        exact ruleStart_keeps

/-! ## §3. The rest of a text. -/

/-- A rule that ends with its last factor has the classes of its expression;
no group is open any more. -/
theorem close_keeps {rules : List Rule} {phase : Phase} (outer : Outer) (body : Regex) :
    Keeps (classesOf rules ++ (outer.classes ++ body.classes)) classesOf
      (close ⟨rules, phase⟩ outer body) := by
  obtain ⟨bol, groups⟩ := outer
  cases groups with
  | nil =>
      show classesOf rules ++ ([] ++ body.classes) ⊆ classesOf (rules ++ [_])
      rw [List.nil_append, classesOf_append, classesOf_singleton]
      exact List.Subset.refl _
  | cons group groups => trivial

/-- **At the end** the rules have all classes. -/
theorem finish_keeps (r : Reader) (stop : Nat) : Keeps r.classes classesOf (r.finish stop) := by
  obtain ⟨rules, phase⟩ := r
  cases phase with
  | ruleStart | operand | inBracket => trivial
  | afterTerm outer before term =>
      have h : Keeps (classesOf rules ++ (outer.classes ++
          (Branch.join .alt before.alts (Branch.join .cat before.cat term)).classes)) classesOf
          (finish ⟨rules, .afterTerm outer before term⟩ stop) := close_keeps outer _
      rw [Branch.classes_join_alt, Branch.classes_join_cat, ← List.append_assoc (optionClasses _),
        ← List.append_assoc outer.classes] at h
      exact h
  | afterFactor outer alts cat =>
      have h : Keeps (classesOf rules ++ (outer.classes ++
          (Branch.join .alt alts cat).classes)) classesOf
          (finish ⟨rules, .afterFactor outer alts cat⟩ stop) := close_keeps outer _
      rw [Branch.classes_join_alt, ← List.append_assoc outer.classes] at h
      exact h
  | afterDollar rule =>
      show classesOf rules ++ rule.body.classes ⊆ classesOf (rules ++ [rule])
      rw [classesOf_append, classesOf_singleton]
      exact List.Subset.refl _

/-- **What the reader holds at some point is in the rules** that it ends
with. -/
theorem classes_subset_of_complete {r : Reader} {stop : Nat} {items : List Item}
    {rules : List Rule} (h : r.complete stop items = .ok rules) :
    r.classes ⊆ classesOf rules := by
  induction items generalizing r with
  | nil =>
      have hend := r.finish_keeps stop
      have hfinish : r.finish stop = .ok rules := h
      rwa [hfinish] at hend
  | cons item items ih =>
      cases item with
      | foreign b p => cases h
      | token t =>
          have hkeeps := r.step_keeps t
          cases hstep : r.step t with
          | error refusal =>
              rw [complete_refused hstep] at h
              cases h
          | ok next =>
              rw [hstep] at hkeeps
              rw [complete_cons hstep] at h
              exact List.Subset.trans hkeeps (ih h)

end Reader

end LineScan
