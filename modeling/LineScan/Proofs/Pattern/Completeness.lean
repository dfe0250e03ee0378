/-
  LineScan.Proofs.Pattern.Completeness
  ────────────────────────────────────
  **WHAT DERIVES IS READ.**

  The induction is on the derivation.  A reader is `Ready` for a factor in
  phases of three kinds: before a rule, before the first factor of an
  alternative, and `Past` one.  Read from there, a derived list of tokens
  leads to a phase that keeps the surroundings and holds an expression with
  the derived language.  What is read before it and behind it does not
  matter, so the cases of the derivation compose.

  Since the reader is a function, a list of tokens has one language only
  (`MachineText.unique`).
-/
import LineScan.Proofs.Pattern.Soundness

namespace LineScan

open Computability

/-! ## §1. Reading several tokens. -/

/-- Reading tokens leads from one reader to another. -/
def Reader.Reads (r : Reader) (ts : List Token) (r' : Reader) : Prop :=
  r.feedAll (ts.map Item.token) = .ok r'

namespace Reader.Reads

variable {r r' r'' : Reader} {t : Token} {ts us : List Token}

theorem nil : r.Reads [] r := rfl

theorem cons (h : r.step t = .ok r') (h' : r'.Reads ts r'') : r.Reads (t :: ts) r'' := by
  unfold Reads at h' ⊢
  simp only [Reader.feedAll, List.map_cons, List.foldlM_cons, Reader.feed, h, bind, Except.bind]
  exact h'

theorem single (h : r.step t = .ok r') : r.Reads [t] r' := .cons h .nil

theorem append (h : r.Reads ts r') (h' : r'.Reads us r'') : r.Reads (ts ++ us) r'' := by
  unfold Reads at h h' ⊢
  rw [Reader.feedAll] at h h' ⊢
  rw [List.map_append, List.foldlM_append, h]
  exact h'

end Reader.Reads

/-! ## §2. Phases that are ready for a factor. -/

/-- A kind with which a term begins. -/
def Kind.BeginsTerm (k : Kind) : Prop :=
  k = .literal ∨ k = .dash ∨ k = .dot ∨ k = .leftBracket ∨ k = .leftParen

/-- A phase in which `cat` has been read of an alternative. -/
inductive Phase.Past : Phase → Outer → Option Regex → Regex → Prop where
  | afterTerm (outer : Outer) (before : Branch) (term : Regex) :
      Past (.afterTerm outer before term) outer before.alts (Branch.join .cat before.cat term)
  | afterFactor (outer : Outer) (alts : Option Regex) (cat : Regex) :
      Past (.afterFactor outer alts cat) outer alts cat

/-- A phase in which a factor may begin. -/
inductive Phase.Ready : Phase → Outer → Branch → Prop where
  | ruleStart : Ready .ruleStart ⟨false, []⟩ Branch.empty
  | operand (outer : Outer) (alts : Option Regex) : Ready (.operand outer alts) outer ⟨alts, none⟩
  | past {phase : Phase} {outer : Outer} {alts : Option Regex} {cat : Regex} :
      Past phase outer alts cat → Ready phase outer ⟨alts, some cat⟩

namespace Phase

variable {phase : Phase} {outer : Outer} {before : Branch} {alts : Option Regex} {cat : Regex}
  {t : Token} {rules : List Rule}

theorem quantifier?_eq_none (h : t.kind.BeginsTerm) : quantifier? t.kind = none := by
  rcases h with h | h | h | h | h <;> rw [h] <;> rfl

theorem Past.step (h : Past phase outer alts cat) (hq : quantifier? t.kind = none) :
    Reader.step ⟨rules, phase⟩ t =
      Reader.enter ⟨rules, phase⟩ (afterFactorStep outer alts cat t) := by
  cases h with
  | afterTerm => simp only [Reader.step, afterTermStep, hq]
  | afterFactor => rfl

/-- **A factor begins alike** in every phase that is ready for it. -/
theorem Ready.step (h : Ready phase outer before) (hk : t.kind.BeginsTerm) :
    Reader.step ⟨rules, phase⟩ t = Reader.enter ⟨rules, phase⟩ (beginFactor outer before t) := by
  cases h with
  | ruleStart =>
      have hc : t.kind ≠ .caret := by
        rcases hk with h | h | h | h | h <;> rw [h] <;> decide
      simp only [Reader.step, ruleStartStep, if_neg hc]
  | operand => rfl
  | past h =>
      rw [h.step (quantifier?_eq_none hk)]
      rcases hk with h | h | h | h | h <;> simp only [afterFactorStep, h]

theorem Ready.reads_single {phase' : Phase} (h : Ready phase outer before) (rules : List Rule)
    (hk : t.kind.BeginsTerm) (hbegin : beginFactor outer before t = .ok phase') :
    Reader.Reads ⟨rules, phase⟩ [t] ⟨rules, phase'⟩ := by
  apply Reader.Reads.single
  rw [h.step hk, hbegin]
  rfl

end Phase

/-! ## §3. Classes. -/

/-- The rest of a class is read, whatever has been read of it. -/
theorem ClassText.reads {rules : List Rule} {outer : Outer} {before : Branch} {openedAt : Nat}
    {bracket : Bracket} {us ts : List Token} {closing : Token} {S : Set Symbol}
    (hread : bracket.HasRead us) (h : ClassText (us ++ ts) S) (hts : ∀ t ∈ ts, t.Proper)
    (hclosing : closing.kind = .rightBracket) :
    ∃ c, Reader.Reads ⟨rules, .inBracket outer before openedAt bracket⟩ (ts ++ [closing])
        ⟨rules, .afterTerm outer before (.cls c)⟩ ∧ (Edge.cls c).symbols = S := by
  -- the induction is on what is left of the class
  induction ts generalizing us bracket with
  | nil =>
      rw [List.append_nil] at h
      obtain ⟨c, hstep, hclass⟩ := hread.close hclosing
      refine ⟨c, ?_, h.unique hclass⟩
      apply Reader.Reads.single
      simp only [Reader.step, Phase.bracketStep, hstep, Reader.enter]
  | cons t ts ih =>
      have ht := hts t List.mem_cons_self
      have hk : t.kind ≠ .rightBracket := h.kind_ne (by simp)
      rcases hread.step ht hk with ⟨bracket', hstep, hread'⟩ | ⟨e, _, hno⟩
      · have h' : ClassText (us ++ [t] ++ ts) S := by simpa using h
        obtain ⟨c, hreads, hc⟩ :=
          ih hread' h' (fun u hu => hts u (List.mem_cons_of_mem _ hu))
        refine ⟨c, .cons ?_ hreads, hc⟩
        simp only [Reader.step, Phase.bracketStep, hstep, Reader.enter]
      · exact absurd h (hno ts S)

/-! ## §4. Expressions. -/

/-- Where reading a derived list of tokens leads, when it begins in a phase
that is ready for it. -/
def Category.Leads (category : Category) (ts : List Token) (L : Language UInt8) : Prop :=
  ∀ (rules : List Rule) (phase : Phase) (outer : Outer),
    match category with
    | .term => ∀ before, phase.Ready outer before →
        ∃ r : Regex, Reader.Reads ⟨rules, phase⟩ ts ⟨rules, .afterTerm outer before r⟩ ∧
          r.language = L
    | .factor => ∀ before, phase.Ready outer before →
        ∃ phase' r, Reader.Reads ⟨rules, phase⟩ ts ⟨rules, phase'⟩ ∧
          phase'.Past outer before.alts (Branch.join .cat before.cat r) ∧ r.language = L
    | .cat => ∀ alts, phase.Ready outer ⟨alts, none⟩ →
        ∃ phase' r, Reader.Reads ⟨rules, phase⟩ ts ⟨rules, phase'⟩ ∧
          phase'.Past outer alts r ∧ r.language = L
    | .expr => phase.Ready outer Branch.empty →
        ∃ phase' alts r, Reader.Reads ⟨rules, phase⟩ ts ⟨rules, phase'⟩ ∧
          phase'.Past outer alts r ∧ (Branch.join .alt alts r).language = L

/-- A term and its quantifier. -/
theorem Category.Leads.quantified {ts : List Token} {t : Token} {L : Language UInt8}
    {q : Regex → Regex} (h : Category.term.Leads ts L)
    (hq : Phase.quantifier? t.kind = some q) :
    ∀ (M : Language UInt8), (∀ r : Regex, r.language = L → (q r).language = M) →
      Category.factor.Leads (ts ++ [t]) M := by
  intro M hM rules phase outer before hready
  obtain ⟨r, hreads, hr⟩ := h rules phase outer before hready
  refine ⟨_, q r, hreads.append (.single ?_), .afterFactor _ _ _, hM r hr⟩
  simp only [Reader.step, Phase.afterTermStep, hq, Reader.enter]

/-- **Whatever derives is read** where it may begin. -/
theorem Derives.leads {category : Category} {ts : List Token} {L : Language UInt8}
    (h : Derives category ts L) (hts : ∀ t ∈ ts, t.Proper) : category.Leads ts L := by
  induction h with
  | @symbol t hk =>
      intro rules phase outer before hready
      have hbegin : t.kind.BeginsTerm := by
        rcases hk with hk | hk
        · exact .inl hk
        · exact .inr (.inl hk)
      refine ⟨.symbol t.symbol, hready.reads_single rules hbegin ?_, rfl⟩
      rcases hk with hk | hk <;> simp only [Phase.beginFactor, hk]
  | dot hk =>
      intro rules phase outer before hready
      refine ⟨.cls CharClass.dot, hready.reads_single rules (.inr (.inr (.inl hk))) ?_, ?_⟩
      · simp only [Phase.beginFactor, hk]
      · rw [Regex.language, Edge.symbols_dot]
  | @cls opening closing ts S hopen hclass hclose =>
      intro rules phase outer before hready
      -- the opening bracket is a factor's first token, the rest is the class's own matter
      have hbegin := hready.reads_single rules (.inr (.inr (.inr (.inl hopen))))
        (show Phase.beginFactor outer before opening =
            .ok (.inBracket outer before opening.position .opened) by
          simp only [Phase.beginFactor, hopen])
      obtain ⟨c, hreads, hc⟩ := ClassText.reads .opened hclass
        (fun t ht => hts t (by simp [ht])) hclose
      refine ⟨.cls c, hbegin.append hreads, ?_⟩
      rw [Regex.language, hc]
  | @group opening closing ts L hopen _ hclose ih =>
      intro rules phase outer before hready
      -- the group is read on a level of its own
      have hbegin := hready.reads_single rules (.inr (.inr (.inr (.inr hopen))))
        (show Phase.beginFactor outer before opening = .ok (.operand
            { outer with groups := ⟨opening.position, before⟩ :: outer.groups } none) by
          simp only [Phase.beginFactor, hopen])
      obtain ⟨phase', alts, r, hreads, hpast, hr⟩ :=
        ih (fun t ht => hts t (by simp [ht])) rules _ _ (.operand _ none)
      refine ⟨Branch.join .alt alts r, (hbegin.append hreads).append (.single ?_), hr⟩
      rw [hpast.step (by rw [hclose]; rfl)]
      simp only [Phase.afterFactorStep, hclose, Reader.enter]
  | bare _ ih =>
      intro rules phase outer before hready
      obtain ⟨r, hreads, hr⟩ := ih hts rules phase outer before hready
      exact ⟨_, r, hreads, .afterTerm _ _ _, hr⟩
  | star _ hk ih =>
      refine (ih fun t ht => hts t (by simp [ht])).quantified (q := .star) (by rw [hk]; rfl) _ ?_
      intro r hr
      rw [Regex.language, hr]
  | plus _ hk ih =>
      refine (ih fun t ht => hts t (by simp [ht])).quantified (q := .plus) (by rw [hk]; rfl) _ ?_
      intro r hr
      rw [Regex.language, hr]
  | optional _ hk ih =>
      refine (ih fun t ht => hts t (by simp [ht])).quantified (q := .optional) (by rw [hk]; rfl)
        _ ?_
      intro r hr
      rw [Regex.language, hr]
  | first _ ih =>
      intro rules phase outer alts hready
      exact ih hts rules phase outer ⟨alts, none⟩ hready
  | append _ _ ih ih' =>
      intro rules phase outer alts hready
      obtain ⟨phase', r, hreads, hpast, hr⟩ :=
        ih (fun t ht => hts t (by simp [ht])) rules phase outer alts hready
      -- the phase behind the first factors is ready for the next one
      obtain ⟨phase'', r', hreads', hpast', hr'⟩ :=
        ih' (fun t ht => hts t (by simp [ht])) rules phase' outer ⟨alts, some r⟩ (.past hpast)
      refine ⟨phase'', .cat r r', hreads.append hreads', hpast', ?_⟩
      rw [Regex.language, hr, hr']
  | alone _ ih =>
      intro rules phase outer hready
      obtain ⟨phase', r, hreads, hpast, hr⟩ := ih hts rules phase outer none hready
      exact ⟨phase', none, r, hreads, hpast, hr⟩
  | @either ts us t _ _ _ hk _ ih ih' =>
      intro rules phase outer hready
      obtain ⟨phase', alts, r, hreads, hpast, hr⟩ :=
        ih (fun t ht => hts t (by simp [ht])) rules phase outer hready
      obtain ⟨phase'', r', hreads', hpast', hr'⟩ :=
        ih' (fun t ht => hts t (by simp [ht])) rules _ outer _
          (.operand outer (some (Branch.join .alt alts r)))
      refine ⟨phase'', some (Branch.join .alt alts r), r', hreads.append (.cons ?_ hreads'),
        hpast', ?_⟩
      · rw [hpast.step (by rw [hk]; rfl)]
        simp only [Phase.afterFactorStep, hk, Reader.enter]
      · rw [Branch.join, Regex.language, hr, hr']

/-! ## §5. Rules and patterns. -/

theorem Derives.exists_cons {category : Category} {ts : List Token} {L : Language UInt8}
    (h : Derives category ts L) : ∃ t rest, ts = t :: rest ∧ t.kind.BeginsTerm := by
  induction h with
  | symbol hk =>
      refine ⟨_, [], rfl, ?_⟩
      rcases hk with hk | hk
      · exact .inl hk
      · exact .inr (.inl hk)
  | dot hk => exact ⟨_, [], rfl, .inr (.inr (.inl hk))⟩
  | cls hopen => exact ⟨_, _, rfl, .inr (.inr (.inr (.inl hopen)))⟩
  | group hopen => exact ⟨_, _, rfl, .inr (.inr (.inr (.inr hopen)))⟩
  | bare _ ih => exact ih
  | first _ ih => exact ih
  | alone _ ih => exact ih
  | star _ _ ih | plus _ _ ih | optional _ _ ih | append _ _ ih | either _ _ _ ih =>
      obtain ⟨t, rest, hts, hk⟩ := ih
      subst hts
      exact ⟨t, _, rfl, hk⟩

theorem RuleText.exists_cons {bol eol : Bool} {ts : List Token} {L : Language UInt8}
    (h : RuleText bol eol ts L) : ∃ t rest, ts = t :: rest ∧ t.kind ≠ .rightParen := by
  cases h with
  | mk hcaret hexpr =>
      cases hcaret with
      | absent =>
          obtain ⟨t, rest, hts, hk⟩ := hexpr.exists_cons
          subst hts
          refine ⟨t, _, rfl, ?_⟩
          rcases hk with h | h | h | h | h <;> rw [h] <;> decide
      | present hk => exact ⟨_, _, rfl, by rw [hk]; decide⟩

theorem PatternText.exists_cons {ts : List Token} {rules : List (Anchor × Language UInt8)}
    (h : PatternText ts rules) : ∃ t rest, ts = t :: rest ∧ t.kind ≠ .rightParen := by
  cases h with
  | last hrule => exact hrule.exists_cons
  | more hrule =>
      obtain ⟨t, rest, hts, hk⟩ := hrule.exists_cons
      subst hts
      exact ⟨t, _, rfl, hk⟩

theorem Derives.exists_snoc {c : Category} {ts : List Token} {L : Language UInt8}
    (h : Derives c ts L) : ∃ front t, ts = front ++ [t] ∧ t.kind ≠ .dollar := by
  induction h with
  | @symbol t hk =>
      refine ⟨[], t, rfl, ?_⟩
      rcases hk with hk | hk <;> rw [hk] <;> decide
  | @dot t hk => exact ⟨[], t, rfl, by rw [hk]; decide⟩
  | cls _ _ hk => exact ⟨_, _, rfl, by rw [hk]; decide⟩
  | group _ _ hk => exact ⟨_, _, rfl, by rw [hk]; decide⟩
  | bare _ ih => exact ih
  | first _ ih => exact ih
  | alone _ ih => exact ih
  | star _ hk | plus _ hk | optional _ hk => exact ⟨_, _, rfl, by rw [hk]; decide⟩
  | @append ts _ _ _ _ _ _ ih =>
      obtain ⟨front, t, rfl, hk⟩ := ih
      exact ⟨ts ++ front, t, (List.append_assoc ..).symm, hk⟩
  | @either ts _ bar _ _ _ _ _ _ ih =>
      obtain ⟨front, t, rfl, hk⟩ := ih
      exact ⟨ts ++ bar :: front, t, by rw [List.append_assoc, List.cons_append], hk⟩

/-- **A text and the rule it spells**: the text begins with `^` when the rule
begins a line, and ends with `$` when it ends one. -/
structure SpellsRule (text : List Token) (rule : Anchor × Language UInt8) : Prop where
  /-- The grammar derives the rule. -/
  derives : RuleText rule.1.bol rule.1.eol text rule.2
  /-- The first token. -/
  bol : rule.1.bol = true ↔ ∃ t ∈ text.head?, t.kind = .caret
  /-- The last token. -/
  eol : rule.1.eol = true ↔ ∃ t ∈ text.getLast?, t.kind = .dollar

/-- No expression begins with `^` or ends with `$`, so the marks of a rule are
seen from its ends. -/
theorem RuleText.spellsRule {bol eol : Bool} {ts : List Token} {L : Language UInt8}
    (h : RuleText bol eol ts L) : SpellsRule ts (⟨bol, eol⟩, L) := by
  refine ⟨h, ?_, ?_⟩
  · cases h with
    | mk hcaret hexpr =>
        cases hcaret with
        | absent =>
            -- the first token is that of a term
            obtain ⟨t, rest, rfl, hk⟩ := hexpr.exists_cons
            have hne : t.kind ≠ .caret := by
              rcases hk with h | h | h | h | h <;> rw [h] <;> decide
            simpa using hne
        | present hk => simpa using hk
  · cases h with
    | mk _ hexpr hdollar =>
        cases hdollar with
        | absent =>
            obtain ⟨front, t, rfl, hk⟩ := hexpr.exists_snoc
            rw [List.append_nil, ← List.append_assoc]
            simpa using hk
        | present hk => simpa using hk

/-- A pattern is made of texts that spell its rules. -/
theorem PatternText.exists_texts {ts : List Token} {rules : List (Anchor × Language UInt8)}
    (h : PatternText ts rules) :
    ∃ texts : List (List Token), texts.flatten = ts ∧ List.Forall₂ SpellsRule texts rules := by
  induction h with
  | @last _ _ ts _ hrule =>
      exact ⟨[ts], List.flatten_singleton, .cons hrule.spellsRule .nil⟩
  | @more _ ts _ _ _ hrule _ ih =>
      obtain ⟨texts, rfl, hall⟩ := ih
      exact ⟨ts :: texts, List.flatten_cons, .cons hrule.spellsRule hall⟩

/-- **A rule is read** before the first token of a rule. -/
theorem RuleText.reads {bol eol : Bool} {ts : List Token} {L : Language UInt8}
    (h : RuleText bol eol ts L) (hts : ∀ t ∈ ts, t.Proper) (rules : List Rule) :
    ∃ r rule, Reader.Reads ⟨rules, .ruleStart⟩ ts r ∧ rule.meaning = (⟨bol, eol⟩, L) ∧
      (∀ stop, r.finish stop = .ok (rules ++ [rule])) ∧
      (eol = true → r = ⟨rules, .afterDollar rule⟩) := by
  cases h with
  | @mk caret ts dollar L hcaret hexpr hdollar =>
      have hbody := hexpr.leads fun t ht => hts t (by simp [ht])
      -- the mark at the beginning decides the surroundings
      have hstart : ∃ phase alts body, Reader.Reads ⟨rules, .ruleStart⟩ (caret ++ ts) ⟨rules, phase⟩ ∧
          phase.Past ⟨bol, []⟩ alts body ∧ (Branch.join .alt alts body).language = L := by
        cases hcaret with
        | absent => exact hbody rules _ ⟨false, []⟩ .ruleStart
        | present hk =>
            obtain ⟨phase, alts, body, hreads, hrest⟩ :=
              hbody rules _ ⟨true, []⟩ (.operand ⟨true, []⟩ none)
            refine ⟨phase, alts, body, .cons ?_ hreads, hrest⟩
            simp only [Reader.step, Phase.ruleStartStep, if_pos hk, Reader.enter]
      obtain ⟨phase, alts, body, hreads, hpast, hL⟩ := hstart
      cases hdollar with
      | absent =>
          refine ⟨_, ⟨bol, Branch.join .alt alts body, false⟩, hreads.append .nil, ?_, ?_,
            fun h => by cases h⟩
          · rw [Rule.meaning, Rule.language, hL]
            rfl
          · intro stop
            cases hpast <;> rfl
      | present hk =>
          refine ⟨⟨rules, .afterDollar ⟨bol, Branch.join .alt alts body, true⟩⟩, _,
            hreads.append (.single ?_), ?_, fun stop => rfl, fun _ => rfl⟩
          · rw [hpast.step (by rw [hk]; rfl)]
            simp only [Phase.afterFactorStep, hk, Reader.enter]
          · rw [Rule.meaning, Rule.language, hL]
            rfl

/-- Behind a completed rule the next one is read as a first one would be. -/
theorem Reader.Reads.afterDollar {rules : List Rule} {rule : Rule} {t : Token}
    {ts : List Token} {r : Reader} (hk : t.kind ≠ .rightParen)
    (h : Reader.Reads ⟨rules ++ [rule], .ruleStart⟩ (t :: ts) r) :
    Reader.Reads ⟨rules, .afterDollar rule⟩ (t :: ts) r := by
  have hstep : Reader.step ⟨rules, .afterDollar rule⟩ t =
      Reader.step ⟨rules ++ [rule], .ruleStart⟩ t := by
    simp only [Reader.step, if_neg hk]
  unfold Reader.Reads at h ⊢
  simp only [Reader.feedAll, List.map_cons, List.foldlM_cons, Reader.feed] at h ⊢
  rw [hstep]
  exact h

/-- **A pattern is read** rule by rule. -/
theorem PatternText.reads {ts : List Token} {meanings : List (Anchor × Language UInt8)}
    (h : PatternText ts meanings) (hts : ∀ t ∈ ts, t.Proper) (rules : List Rule) :
    ∃ r new, Reader.Reads ⟨rules, .ruleStart⟩ ts r ∧ new.map Rule.meaning = meanings ∧
      ∀ stop, r.finish stop = .ok (rules ++ new) := by
  induction h generalizing rules with
  | last hrule =>
      obtain ⟨r, rule, hreads, hL, hfinish, _⟩ := hrule.reads hts rules
      exact ⟨r, [rule], hreads, by rw [List.map_singleton, hL], hfinish⟩
  | more hrule hrest ih =>
      obtain ⟨r, rule, hreads, hL, _, hr⟩ :=
        hrule.reads (fun t ht => hts t (by simp [ht])) rules
      obtain ⟨r', new, hreads', hL', hfinish⟩ :=
        ih (fun t ht => hts t (by simp [ht])) (rules ++ [rule])
      -- the rest cannot begin with a `)`, which would spoil the rule before it
      obtain ⟨t, rest, hus, hk⟩ := hrest.exists_cons
      subst hus
      rw [hr rfl] at hreads
      refine ⟨r', rule :: new, hreads.append (hreads'.afterDollar hk), ?_, ?_⟩
      · rw [List.map_cons, hL, hL']
      · intro stop
        rw [hfinish, List.append_assoc]
        rfl

/-- What is read means what the pattern means. -/
theorem MachineText.reads {ts : List Token} {L : Language UInt8} (h : MachineText ts L)
    (hts : ∀ t ∈ ts, t.Proper) (rules : List Rule) :
    ∃ r new, Reader.Reads ⟨rules, .ruleStart⟩ ts r ∧ Rule.languageOf new = L ∧
      ∀ stop, r.finish stop = .ok (rules ++ new) := by
  obtain ⟨meanings, htext, hsum⟩ := h.exists_patternText
  obtain ⟨r, new, hreads, hmeanings, hfinish⟩ := htext.reads hts rules
  exact ⟨r, new, hreads, by rw [Rule.languageOf_eq_sum, hmeanings, hsum], hfinish⟩

theorem proper_of_itemsOf {pattern : String} {ts : List Token}
    (hts : itemsOf pattern = ts.map Item.token) : ∀ t ∈ ts, t.Proper := by
  intro t ht
  have hmem : Item.token t ∈ itemsOf pattern := by
    rw [hts]
    exact List.mem_map_of_mem ht
  exact Cursor.proper_of_mem_items _ hmem

/-- **Whatever the grammar derives has rules**, which mean what it means. -/
theorem readRules_complete {pattern : String} {ts : List Token} {L : Language UInt8}
    (hts : itemsOf pattern = ts.map Item.token) (h : MachineText ts L) :
    ∃ rules, readRules pattern = .ok rules ∧ Rule.languageOf rules = L := by
  obtain ⟨r, rules, hreads, hL, hfinish⟩ := h.reads (proper_of_itemsOf hts) []
  refine ⟨rules, ?_, hL⟩
  unfold readRules
  rw [hts]
  show (Reader.feedAll ⟨[], .ruleStart⟩ (ts.map Item.token)).bind _ = _
  rw [hreads]
  exact hfinish _

/-- **A list of tokens has one language only**, since the reader is a
function. -/
theorem MachineText.unique {ts : List Token} {L M : Language UInt8} (h : MachineText ts L)
    (h' : MachineText ts M) (hts : ∀ t ∈ ts, t.Proper) : M = L := by
  obtain ⟨r, rules, hreads, hL, hfinish⟩ := h.reads hts []
  obtain ⟨r', rules', hreads', hM, hfinish'⟩ := h'.reads hts []
  rw [Reader.Reads] at hreads hreads'
  rw [hreads] at hreads'
  cases hreads'
  have hrules := hfinish 0
  rw [hfinish' 0] at hrules
  cases hrules
  rw [← hL, ← hM]

/-- Nor has it more than one list of rules. -/
theorem PatternText.unique {ts : List Token} {rules others : List (Anchor × Language UInt8)}
    (h : PatternText ts rules) (h' : PatternText ts others) (hts : ∀ t ∈ ts, t.Proper) :
    others = rules := by
  obtain ⟨r, new, hreads, hmeanings, hfinish⟩ := h.reads hts []
  obtain ⟨r', new', hreads', hmeanings', hfinish'⟩ := h'.reads hts []
  rw [Reader.Reads] at hreads hreads'
  rw [hreads] at hreads'
  cases hreads'
  have hnew := hfinish 0
  rw [hfinish' 0] at hnew
  cases hnew
  rw [← hmeanings, ← hmeanings']

end LineScan
