/-
  LineScan.Proofs.Pattern.Soundness
  ─────────────────────────────────
  **WHAT HAS BEEN READ DERIVES.**

  The reader is a pushdown machine: its phase, with the open groups in it,
  stands for the tokens of the current rule.  `Phase.HasRead` says which
  tokens those are, part by part:

      outer    the mark of the rule, and for each open group what stands
               before it and its parenthesis
      alts     the finished alternatives of the level, with their `|`
      cat      the factors of the unfinished one

  Every step extends the tokens by the one it reads (`Reader.HasRead.step`),
  so what is left at the end is a pattern of the grammar, and its language is
  that of the rules (`readRules_sound`).
-/
import LineScan.Pattern.Reader
import LineScan.Proofs.Pattern.ClassBody

namespace LineScan

open Computability

/-! ## §1. Parts of a rule. -/

/-- The tokens of the finished alternatives of a level. -/
inductive AltsText : Option Regex → List Token → Prop where
  | none : AltsText none []
  | some {r : Regex} {ts : List Token} {t : Token} :
      Derives .expr ts r.language → t.kind = .pipe → AltsText (some r) (ts ++ [t])

/-- The tokens of the factors of an unfinished alternative. -/
inductive CatText : Option Regex → List Token → Prop where
  | none : CatText none []
  | some {r : Regex} {ts : List Token} : Derives .cat ts r.language → CatText (some r) ts

/-- The tokens of an unfinished level. -/
inductive Branch.HasRead : Branch → List Token → Prop where
  | mk {alts cat : Option Regex} {as cs : List Token} :
      AltsText alts as → CatText cat cs → HasRead ⟨alts, cat⟩ (as ++ cs)

/-- The tokens before the innermost level. -/
inductive GroupsText (bol : Bool) : List Group → List Token → Prop where
  | nil {ts : List Token} : Mark .caret bol ts → GroupsText bol [] ts
  | cons {group : Group} {groups : List Group} {us bs : List Token} {t : Token} :
      GroupsText bol groups us → group.before.HasRead bs → t.kind = .leftParen →
      GroupsText bol (group :: groups) (us ++ bs ++ [t])

/-- **The tokens of the rule that is being read.** -/
inductive Phase.HasRead : Phase → List Token → Prop where
  | ruleStart : HasRead .ruleStart []
  | operand {outer : Outer} {alts : Option Regex} {us as : List Token} :
      GroupsText outer.bol outer.groups us → AltsText alts as →
      HasRead (.operand outer alts) (us ++ as)
  | afterTerm {outer : Outer} {before : Branch} {term : Regex} {us bs ts : List Token} :
      GroupsText outer.bol outer.groups us → before.HasRead bs →
      Derives .term ts term.language → HasRead (.afterTerm outer before term) (us ++ bs ++ ts)
  | afterFactor {outer : Outer} {alts : Option Regex} {cat : Regex} {us as cs : List Token} :
      GroupsText outer.bol outer.groups us → AltsText alts as →
      Derives .cat cs cat.language → HasRead (.afterFactor outer alts cat) (us ++ as ++ cs)
  | inBracket {outer : Outer} {before : Branch} {openedAt : Nat} {bracket : Bracket}
      {us bs cs : List Token} {t : Token} :
      GroupsText outer.bol outer.groups us → before.HasRead bs → t.kind = .leftBracket →
      bracket.HasRead cs → HasRead (.inBracket outer before openedAt bracket) (us ++ bs ++ t :: cs)
  | afterDollar {bol : Bool} {body : Regex} {ts : List Token} :
      RuleText bol true ts (Rule.language ⟨bol, body, true⟩) →
      HasRead (.afterDollar ⟨bol, body, true⟩) ts

/-- The tokens of completed rules, all of which end in `$`. -/
inductive RulesText : List Rule → List Token → Prop where
  | nil : RulesText [] []
  | snoc {rules : List Rule} {rule : Rule} {ts us : List Token} :
      RulesText rules ts → rule.eol = true → RuleText rule.bol true us rule.language →
      RulesText (rules ++ [rule]) (ts ++ us)

/-- **The tokens that a reader has read.** -/
inductive Reader.HasRead : Reader → List Token → Prop where
  | mk {rules : List Rule} {phase : Phase} {ts us : List Token} :
      RulesText rules ts → phase.HasRead us → HasRead ⟨rules, phase⟩ (ts ++ us)

/-! ## §2. Joining parts. -/

theorem Edge.symbols_dot : (Edge.cls CharClass.dot).symbols = lineEndsᶜ := by
  have hset : BitSet.toSet (BitSet.ofList [Symbol.lineFeed, Symbol.carriageReturn]) = lineEnds := by
    rw [← Edge.symbols_lineEnd, CharClass.lineEnd, Edge.symbols_cls, if_neg Bool.false_ne_true]
  rw [CharClass.dot, Edge.symbols_cls, if_pos rfl, hset]

theorem AltsText.join {alts : Option Regex} {as cs : List Token} {c : Regex}
    (h : AltsText alts as) (hc : Derives .cat cs c.language) :
    Derives .expr (as ++ cs) (Branch.join .alt alts c).language := by
  cases h with
  | none => exact .alone hc
  | some hr hk =>
      rw [List.append_assoc]
      exact .either hr hk hc

theorem CatText.join {cat : Option Regex} {cs ts : List Token} {f : Regex}
    (h : CatText cat cs) (hf : Derives .factor ts f.language) :
    Derives .cat (cs ++ ts) (Branch.join .cat cat f).language := by
  cases h with
  | none => exact .first hf
  | some hr => exact .append hr hf

theorem Phase.derives_factor_of_quantifier {k : Kind} {q : Regex → Regex}
    (hq : quantifier? k = some q) {ts : List Token} {t : Token} {r : Regex}
    (hr : Derives .term ts r.language) (hk : t.kind = k) :
    Derives .factor (ts ++ [t]) (q r).language := by
  unfold quantifier? at hq
  split at hq
  · cases hq
    exact .star hr hk
  · cases hq
    exact .plus hr hk
  · cases hq
    exact .optional hr hk
  · cases hq

/-! ## §3. One token. -/

namespace Phase

variable {outer : Outer} {before : Branch} {phase : Phase} {t : Token} {us bs : List Token}

theorem HasRead.of_beginFactor (hg : GroupsText outer.bol outer.groups us)
    (hb : before.HasRead bs) (h : beginFactor outer before t = .ok phase) :
    phase.HasRead (us ++ bs ++ [t]) := by
  cases hk : t.kind with
  | leftParen =>
      simp only [beginFactor, hk] at h
      cases h
      rw [← List.append_nil (us ++ bs ++ [t])]
      exact .operand (.cons hg hb hk) .none
  | leftBracket =>
      simp only [beginFactor, hk] at h
      cases h
      exact .inBracket hg hb hk .opened
  | dot =>
      simp only [beginFactor, hk] at h
      cases h
      refine .afterTerm hg hb ?_
      rw [Regex.language, Edge.symbols_dot]
      exact .dot hk
  | dash =>
      simp only [beginFactor, hk] at h
      cases h
      exact .afterTerm hg hb (.symbol (.inr hk))
  | literal =>
      simp only [beginFactor, hk] at h
      cases h
      exact .afterTerm hg hb (.symbol (.inl hk))
  | star | plus | questionMark | rightBracket | caret | rightParen | dollar | pipe =>
      simp only [beginFactor, hk] at h
      cases h

theorem HasRead.of_afterFactorStep {alts : Option Regex} {cat : Regex} {as cs : List Token}
    (hg : GroupsText outer.bol outer.groups us) (ha : AltsText alts as)
    (hc : Derives .cat cs cat.language)
    (h : afterFactorStep outer alts cat t = .ok phase) :
    phase.HasRead (us ++ (as ++ cs) ++ [t]) := by
  have hexpr := ha.join hc
  obtain ⟨bol, groups⟩ := outer
  unfold afterFactorStep at h
  split at h
  case h_1 hk =>
      cases h
      rw [List.append_assoc]
      exact .operand hg (.some hexpr hk)
  case h_2 hk =>
      -- the group that is closed becomes a term of the level around it
      cases hg with
      | nil => cases h
      | cons hg hb hopen =>
          cases h
          have hterm := Derives.group hopen hexpr hk
          simpa using @HasRead.afterTerm ⟨bol, _⟩ _ _ _ _ _ hg hb hterm
  case h_3 hk =>
      -- the dollar ends a rule only outside all groups
      cases hg with
      | nil hmark =>
          cases h
          exact .afterDollar (.mk hmark hexpr (.present hk))
      | cons => cases h
  case h_4 => exact .of_beginFactor hg (.mk ha (.some hc)) h

theorem HasRead.of_afterTermStep {term : Regex} {ts : List Token}
    (hg : GroupsText outer.bol outer.groups us) (hb : before.HasRead bs)
    (ht : Derives .term ts term.language) (h : afterTermStep outer before term t = .ok phase) :
    phase.HasRead (us ++ bs ++ ts ++ [t]) := by
  cases hb with
  | @mk alts cat as cs ha hc =>
      -- a quantifier completes the factor; without one the term is a factor as it is
      unfold afterTermStep at h
      cases hq : quantifier? t.kind with
      | some q =>
          simp only [hq] at h
          cases h
          have hcat := hc.join (derives_factor_of_quantifier hq ht rfl)
          simpa using @HasRead.afterFactor outer _ _ _ _ _ hg ha hcat
      | none =>
          simp only [hq] at h
          simpa using HasRead.of_afterFactorStep hg ha (hc.join (.bare ht)) h

theorem HasRead.of_bracketStep {openedAt : Nat} {bracket : Bracket} {cs : List Token}
    {opening : Token} (hg : GroupsText outer.bol outer.groups us) (hb : before.HasRead bs)
    (hopen : opening.kind = .leftBracket) (hcs : bracket.HasRead cs) (ht : t.Proper)
    (h : bracketStep outer before openedAt bracket t = .ok phase) :
    phase.HasRead (us ++ bs ++ opening :: cs ++ [t]) := by
  by_cases hk : t.kind = .rightBracket
  · obtain ⟨c, hstep, hclass⟩ := hcs.close hk
    simp only [bracketStep, hstep] at h
    cases h
    have hterm : Derives .term _ (Regex.cls c).language := .cls hopen hclass hk
    simpa using @HasRead.afterTerm outer _ _ _ _ _ hg hb hterm
  · rcases hcs.step ht hk with ⟨bracket', hstep, hcs'⟩ | ⟨e, hstep, _⟩
    · simp only [bracketStep, hstep] at h
      cases h
      simpa using @HasRead.inBracket outer _ _ _ _ _ _ _ hg hb hopen hcs'
    · simp only [bracketStep, hstep] at h
      cases h

theorem HasRead.of_ruleStartStep (h : ruleStartStep t = .ok phase) : phase.HasRead [t] := by
  unfold ruleStartStep at h
  split at h
  case isTrue hk =>
      cases h
      exact @HasRead.operand ⟨true, []⟩ _ _ _ (.nil (.present hk)) .none
  case isFalse =>
      exact @HasRead.of_beginFactor ⟨false, []⟩ _ _ _ _ _ (.nil .absent) (.mk .none .none) h

end Phase

namespace Reader

theorem HasRead.enter {rules : List Rule} {phase : Phase} {r : Reader} {ts us : List Token}
    {next : Except SyntaxError Phase} (hr : RulesText rules ts)
    (hnext : ∀ phase', next = .ok phase' → phase'.HasRead us)
    (h : Reader.enter ⟨rules, phase⟩ next = .ok r) : r.HasRead (ts ++ us) := by
  cases next with
  | error e => cases h
  | ok phase' =>
      cases h
      exact .mk hr (hnext phase' rfl)

/-- **A step reads its token.** -/
theorem HasRead.step {r r' : Reader} {ts : List Token} {t : Token} (h : r.HasRead ts)
    (ht : t.Proper) (hstep : r.step t = .ok r') : r'.HasRead (ts ++ [t]) := by
  cases h with
  | @mk rules phase ts us hr hp =>
      rw [List.append_assoc]
      cases hp with
      | ruleStart => exact .enter hr (fun _ h => .of_ruleStartStep h) hstep
      | operand hg ha =>
          refine .enter hr (fun _ h => ?_) hstep
          simpa using Phase.HasRead.of_beginFactor hg (.mk ha .none) h
      | afterTerm hg hb ht => exact .enter hr (fun _ h => .of_afterTermStep hg hb ht h) hstep
      | afterFactor hg ha hc =>
          refine .enter hr (fun _ h => ?_) hstep
          simpa using Phase.HasRead.of_afterFactorStep hg ha hc h
      | inBracket hg hb hopen hcs =>
          exact .enter hr (fun _ h => .of_bracketStep hg hb hopen hcs ht h) hstep
      | afterDollar hrule =>
          -- the rule is complete, and the token begins the next one
          unfold Reader.step at hstep
          split at hstep <;> try contradiction
          rename_i heq
          cases heq
          split at hstep
          · cases hstep
          · rw [← List.append_assoc]
            exact .enter (.snoc hr rfl hrule) (fun _ h => .of_ruleStartStep h) hstep

/-- **Reading items reads tokens**: a foreign byte is refused. -/
theorem HasRead.feedAll {r r' : Reader} {ts : List Token} {items : List Item}
    (h : r.HasRead ts) (hitems : ∀ t, Item.token t ∈ items → t.Proper)
    (hfeed : r.feedAll items = .ok r') :
    ∃ us, items = us.map Item.token ∧ r'.HasRead (ts ++ us) := by
  induction items generalizing r ts with
  | nil =>
      cases hfeed
      exact ⟨[], rfl, by rwa [List.append_nil]⟩
  | cons i items ih =>
      cases i with
      | foreign b p => cases hfeed
      | token t =>
          cases hstep : r.step t with
          | error e =>
              simp only [Reader.feedAll, List.foldlM_cons, feed, hstep, bind, Except.bind] at hfeed
              cases hfeed
          | ok next =>
              simp only [Reader.feedAll, List.foldlM_cons, feed, hstep, bind, Except.bind] at hfeed
              have ht := hitems t List.mem_cons_self
              obtain ⟨us, hus, hr⟩ := ih (h.step ht hstep)
                (fun u hu => hitems u (List.mem_cons_of_mem _ hu)) hfeed
              exact ⟨t :: us, by rw [hus]; rfl, by simpa using hr⟩

end Reader

/-! ## §4. Whole patterns. -/

theorem RulesText.patternText {rules : List Rule} {ts us : List Token}
    {further : List (Anchor × Language UInt8)} (h : RulesText rules ts)
    (hlast : PatternText us further) :
    PatternText (ts ++ us) (rules.map Rule.meaning ++ further) := by
  -- the rules are taken off from behind, so the last pattern grows at its front
  induction h generalizing us further with
  | nil => exact hlast
  | @snoc rules rule ts vs _ heol hrule ih =>
      have hmeaning : rule.meaning = (⟨rule.bol, true⟩, rule.language) := by
        rw [Rule.meaning, Rule.anchor, heol]
      rw [List.map_append, List.map_singleton, hmeaning, List.append_assoc, List.append_assoc]
      exact ih (.more hrule hlast)

/-- The rule that is being read completes a pattern when it ends here. -/
theorem RulesText.patternText_last {rules : List Rule} {rule : Rule} {ts us : List Token}
    (h : RulesText rules ts) (hrule : RuleText rule.bol rule.eol us rule.language) :
    PatternText (ts ++ us) ((rules ++ [rule]).map Rule.meaning) := by
  rw [List.map_append]
  exact h.patternText (.last hrule)

theorem GroupsText.ruleText {bol : Bool} {us ts : List Token} {body : Regex}
    (hg : GroupsText bol [] us) (h : Derives .expr ts body.language) :
    RuleText bol false (us ++ ts) (Rule.language ⟨bol, body, false⟩) := by
  cases hg with
  | nil hmark =>
      rw [← List.append_nil (us ++ ts)]
      exact .mk hmark h .absent

/-- **What ends a pattern** leaves rules that it derives. -/
theorem Reader.HasRead.finish {r : Reader} {ts : List Token} {stop : Nat} {rules : List Rule}
    (h : r.HasRead ts) (hfinish : r.finish stop = .ok rules) :
    rules ≠ [] ∧ PatternText ts (rules.map Rule.meaning) := by
  have hclose : ∀ {done : List Rule} {phase : Phase} {outer : Outer} {body : Regex}
      {vs us ws : List Token}, RulesText done vs → GroupsText outer.bol outer.groups us →
      Derives .expr ws body.language → Reader.close ⟨done, phase⟩ outer body = .ok rules →
      rules ≠ [] ∧ PatternText (vs ++ (us ++ ws)) (rules.map Rule.meaning) := by
    intro done phase outer body vs us ws hr hg hbody h
    obtain ⟨bol, groups⟩ := outer
    cases groups with
    | nil =>
        cases h
        exact ⟨by simp, hr.patternText_last (hg.ruleText hbody)⟩
    | cons => cases h
  cases h with
  | mk hr hp =>
      cases hp with
      | ruleStart => cases hfinish
      | operand => cases hfinish
      | inBracket => cases hfinish
      | afterTerm hg hb ht =>
          cases hb with
          | mk ha hc => simpa using hclose hr hg (ha.join (hc.join (.bare ht))) hfinish
      | afterFactor hg ha hc => simpa using hclose hr hg (ha.join hc) hfinish
      | afterDollar hrule =>
          cases hfinish
          exact ⟨by simp, hr.patternText_last hrule⟩

/-- **What the reader reads is a pattern of the grammar**, with its rules. -/
theorem readRules_patternText {pattern : String} {rules : List Rule}
    (h : readRules pattern = .ok rules) :
    rules ≠ [] ∧ ∃ ts, itemsOf pattern = ts.map Item.token ∧
      PatternText ts (rules.map Rule.meaning) := by
  unfold readRules at h
  cases hfeed : Reader.start.feedAll (itemsOf pattern) with
  | error e =>
      rw [hfeed] at h
      cases h
  | ok r =>
      rw [hfeed] at h
      have hstart : Reader.start.HasRead ([] ++ []) := .mk .nil .ruleStart
      obtain ⟨ts, hts, hr⟩ := hstart.feedAll
        (fun t ht => Cursor.proper_of_mem_items _ ht) hfeed
      obtain ⟨hne, htext⟩ := hr.finish h
      exact ⟨hne, ts, hts, htext⟩

/-- What the reader reads means what its rules mean. -/
theorem readRules_sound {pattern : String} {rules : List Rule}
    (h : readRules pattern = .ok rules) :
    rules ≠ [] ∧ ∃ ts, itemsOf pattern = ts.map Item.token ∧
      MachineText ts (Rule.languageOf rules) := by
  obtain ⟨hne, ts, hts, htext⟩ := readRules_patternText h
  rw [Rule.languageOf_eq_sum]
  exact ⟨hne, ts, hts, htext.machineText⟩

end LineScan
