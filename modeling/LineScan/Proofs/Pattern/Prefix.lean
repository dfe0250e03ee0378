/-
  LineScan.Proofs.Pattern.Prefix
  ──────────────────────────────
  **A TEXT IS REFUSED AT THE EARLIEST ITEM.**

  A list of items is viable when some accepted list of tokens begins with it.
  The reader never takes an item that leaves the viable lists, and never
  refuses one that stays in them:

      taken      what has been read can be completed      (`viable_of_reads`)
      refused    with one more item it cannot             (`not_viable_of_refused`)

  For the first, `Phase.completion` names tokens that end whatever phase the
  reader is in, and soundness says that what is then read derives.  For the
  second, whatever derives is read, and the reader is a function.
-/
import LineScan.Proofs.Nfa.OfPattern

namespace LineScan

/-! ## §1. Accepted and viable lists. -/

/-- A list of tokens as texts spell them, which the grammar derives. -/
structure Accepted (ts : List Token) : Prop where
  /-- An operator stands for its own byte. -/
  proper : ∀ t ∈ ts, t.Proper
  /-- The grammar derives the list. -/
  derives : ∃ L, MachineText ts L

/-- Items with which some accepted list of tokens begins. -/
def Viable (items : List Item) : Prop := ∃ ts, Accepted ts ∧ items <+: ts.map Item.token

theorem Item.map_token_injective : Function.Injective (List.map Item.token) :=
  List.map_injective_iff.2 fun _ _ h => Item.token.inj h

/-- **The reader accepts the accepted lists**: it reads such a list and ends
well. -/
theorem accepted_iff_reads {ts : List Token} :
    Accepted ts ↔ (∀ t ∈ ts, t.Proper) ∧
      ∃ r rules, Reader.start.Reads ts r ∧ ∀ stop, r.finish stop = .ok rules := by
  constructor
  · intro h
    obtain ⟨L, hL⟩ := h.derives
    obtain ⟨r, rules, hreads, _, hfinish⟩ := hL.reads h.proper []
    exact ⟨h.proper, r, rules, hreads, hfinish⟩
  · rintro ⟨hproper, r, rules, hreads, hfinish⟩
    refine ⟨hproper, Rule.languageOf rules, ?_⟩
    have hstart : Reader.start.HasRead ([] ++ []) := .mk .nil .ruleStart
    have hitems : ∀ t, Item.token t ∈ ts.map Item.token → t.Proper := by
      intro t ht
      obtain ⟨u, hu, he⟩ := List.mem_map.1 ht
      cases he
      exact hproper t hu
    obtain ⟨us, hus, hr⟩ := hstart.feedAll hitems hreads
    rw [Item.map_token_injective hus]
    have htext := (hr.finish (hfinish 0)).2
    rw [Rule.languageOf_eq_sum]
    exact htext.machineText

/-! ## §2. Completing what has been read. -/

/-- The letter `x`, wherever it stands. -/
def Token.letter : Token := ⟨.literal, ⟨120, by decide⟩, 0⟩

/-- A closing parenthesis. -/
def Token.closing : Token := ⟨.rightParen, ⟨41, by decide⟩, 0⟩

/-- A closing bracket. -/
def Token.closingBracket : Token := ⟨.rightBracket, ⟨93, by decide⟩, 0⟩

/-- A closing parenthesis for each open group. -/
def Outer.closings (outer : Outer) : List Token := outer.groups.map fun _ => Token.closing

/-- **Tokens that complete a pattern** of which a part has been read. -/
def Phase.completion : Phase → List Token
  | .ruleStart => [Token.letter]
  | .operand outer _ => Token.letter :: outer.closings
  | .afterTerm outer _ _ => outer.closings
  | .afterFactor outer _ _ => outer.closings
  | .inBracket outer _ _ _ => Token.closingBracket :: outer.closings
  | .afterDollar _ => []

theorem Outer.proper_closings (outer : Outer) : ∀ t ∈ outer.closings, t.Proper := by
  intro t ht
  obtain ⟨_, _, rfl⟩ := List.mem_map.1 ht
  exact .inr (by decide)

theorem Phase.proper_completion (phase : Phase) : ∀ t ∈ phase.completion, t.Proper := by
  have hletter : Token.letter.Proper := .inl rfl
  have hbracket : Token.closingBracket.Proper := .inr (by decide)
  intro t ht
  cases phase with
  | ruleStart => exact List.mem_singleton.1 ht ▸ hletter
  | operand outer =>
      rcases List.mem_cons.1 ht with rfl | ht
      · exact hletter
      · exact outer.proper_closings t ht
  | afterTerm outer => exact outer.proper_closings t ht
  | afterFactor outer => exact outer.proper_closings t ht
  | inBracket outer =>
      rcases List.mem_cons.1 ht with rfl | ht
      · exact hbracket
      · exact outer.proper_closings t ht
  | afterDollar => cases ht

/-- Ended well: whatever the offset, the reader ends with rules. -/
def Reader.Done (r : Reader) : Prop := ∃ rules, ∀ stop, r.finish stop = .ok rules

/-- Behind a factor, closing all groups ends the pattern. -/
theorem Phase.Past.exists_done {phase : Phase} {outer : Outer} {alts : Option Regex}
    {cat : Regex} (h : phase.Past outer alts cat) (rules : List Rule) :
    ∃ r, Reader.Reads ⟨rules, phase⟩ outer.closings r ∧ r.Done := by
  obtain ⟨bol, groups⟩ := outer
  -- the induction is on the open groups; each closing makes a term of the level around it
  induction groups generalizing phase alts cat with
  | nil =>
      refine ⟨_, .nil, rules ++ [⟨bol, Branch.join .alt alts cat, false⟩], ?_⟩
      intro stop
      cases h <;> rfl
  | cons group groups ih =>
      obtain ⟨r, hreads, hdone⟩ :=
        ih (.afterTerm ⟨bol, groups⟩ group.before (Branch.join .alt alts cat))
      refine ⟨r, .cons ?_ hreads, hdone⟩
      rw [h.step rfl]
      rfl

/-- A class can be closed at any time. -/
theorem Bracket.exists_closed (b : Bracket) : ∃ c, b.step Token.closingBracket = .ok (.closed c) := by
  cases b with
  | opened => exact ⟨_, rfl⟩
  | negated => exact ⟨_, rfl⟩
  | body complement set memory => cases memory <;> exact ⟨_, rfl⟩

/-- **What has been read can be completed.** -/
theorem Reader.exists_done (r : Reader) : ∃ r', r.Reads r.phase.completion r' ∧ r'.Done := by
  obtain ⟨rules, phase⟩ := r
  cases phase with
  | ruleStart =>
      obtain ⟨r', hreads, hdone⟩ := (Phase.Past.afterTerm ⟨false, []⟩ Branch.empty
        (.symbol Token.letter.symbol)).exists_done rules
      exact ⟨r', .cons rfl hreads, hdone⟩
  | operand outer alts =>
      obtain ⟨r', hreads, hdone⟩ := (Phase.Past.afterTerm outer ⟨alts, none⟩
        (.symbol Token.letter.symbol)).exists_done rules
      exact ⟨r', .cons rfl hreads, hdone⟩
  | afterTerm outer before term => exact (Phase.Past.afterTerm outer before term).exists_done rules
  | afterFactor outer alts cat => exact (Phase.Past.afterFactor outer alts cat).exists_done rules
  | inBracket outer before openedAt bracket =>
      obtain ⟨c, hc⟩ := bracket.exists_closed
      obtain ⟨r', hreads, hdone⟩ :=
        (Phase.Past.afterTerm outer before (.cls c)).exists_done rules
      refine ⟨r', .cons ?_ hreads, hdone⟩
      show Reader.enter _ (Phase.bracketStep outer before openedAt bracket Token.closingBracket) = _
      rw [Phase.bracketStep, hc]
      rfl
  | afterDollar rule => exact ⟨_, .nil, rules ++ [rule], fun stop => rfl⟩

/-! ## §3. Taken and refused items. -/

variable {before : List Token} {r : Reader}

/-- **What the reader has taken is viable.** -/
theorem viable_of_reads (hproper : ∀ t ∈ before, t.Proper) (h : Reader.start.Reads before r) :
    Viable (before.map Item.token) := by
  obtain ⟨r', hreads, rules, hfinish⟩ := r.exists_done
  refine ⟨before ++ r.phase.completion, accepted_iff_reads.2 ⟨?_, ?_⟩, ?_⟩
  · intro t ht
    rcases List.mem_append.1 ht with ht | ht
    · exact hproper t ht
    · exact r.phase.proper_completion t ht
  · exact ⟨r', rules, h.append hreads, hfinish⟩
  · rw [List.map_append]
    exact List.prefix_append _ _

/-- **With an item that the reader refuses, it is viable no more.** -/
theorem not_viable_of_refused {item : Item} {refusal : Refusal}
    (h : Reader.start.Reads before r) (hitem : r.feed item = .error refusal) :
    ¬ Viable (before.map Item.token ++ [item]) := by
  rintro ⟨ts, hts, rest, hprefix⟩
  obtain ⟨_, r', rules, hreads, _⟩ := accepted_iff_reads.1 hts
  -- reading the accepted list passes through the refusal
  rw [Reader.Reads, ← hprefix, Reader.feedAll, List.append_assoc, List.foldlM_append] at hreads
  rw [Reader.Reads, Reader.feedAll] at h
  rw [h] at hreads
  simp only [bind, Except.bind, List.singleton_append, List.foldlM_cons, hitem] at hreads
  cases hreads

/-- **What the reader does not end well is not accepted.** -/
theorem not_accepted_of_unfinished {stop : Nat} {refusal : Refusal}
    (h : Reader.start.Reads before r) (hfinish : r.finish stop = .error refusal) :
    ¬ Accepted before := by
  intro haccepted
  obtain ⟨_, r', rules, hreads, hdone⟩ := accepted_iff_reads.1 haccepted
  rw [Reader.Reads] at h hreads
  rw [h] at hreads
  cases hreads
  rw [hdone stop] at hfinish
  cases hfinish

/-! ## §4. The items that are asked for. -/

/-- **The items that a reader asks for**: those it takes, and the one it
refuses.  If it takes all of them, what it asks for last is the end. -/
def Reader.requests (r : Reader) : List Item → List Item × Option Item
  | [] => ([], none)
  | item :: rest =>
      match r.feed item with
      | .error _ => ([], some item)
      | .ok r =>
          let (taken, last) := r.requests rest
          (item :: taken, last)

/-- The items that are asked for while a text is read. -/
def requestsOf (pattern : String) : List Item × Option Item :=
  Reader.start.requests (itemsOf pattern)

/-- **Reading takes all items, or stops at one that is refused.** -/
theorem Reader.requests_spec (r : Reader) (items : List Item) :
    (∃ r', r.feedAll items = .ok r' ∧ r.requests items = (items, none)) ∨
      ∃ taken item rest r' refusal, items = taken ++ item :: rest ∧
        r.feedAll taken = .ok r' ∧ r'.feed item = .error refusal ∧
        r.feedAll items = .error refusal ∧ r.requests items = (taken, some item) := by
  induction items generalizing r with
  | nil => exact .inl ⟨r, rfl, rfl⟩
  | cons item rest ih =>
      simp only [feedAll, requests, List.foldlM_cons]
      cases hfeed : r.feed item with
      | error refusal => exact .inr ⟨[], item, rest, r, refusal, rfl, rfl, hfeed, rfl, rfl⟩
      | ok next =>
          rcases ih next with ⟨r', hall, hreq⟩ |
            ⟨taken, refused, further, r', refusal, hrest, htaken, hrefused, hall, hreq⟩
          · exact .inl ⟨r', hall, by simp only [hreq]⟩
          · refine .inr ⟨item :: taken, refused, further, r', refusal, ?_, ?_, hrefused, hall, ?_⟩
            · rw [hrest, List.cons_append]
            · simp only [List.foldlM_cons, hfeed]
              exact htaken
            · simp only [hreq]

/-- What the items of a text are, as far as they are taken: tokens. -/
theorem exists_tokens_of_feedAll {items : List Item} (h : Reader.start.feedAll items = .ok r)
    (hitems : ∀ t, Item.token t ∈ items → t.Proper) :
    ∃ ts, items = ts.map Item.token ∧ (∀ t ∈ ts, t.Proper) ∧ Reader.start.Reads ts r := by
  have hstart : Reader.start.HasRead ([] ++ []) := .mk .nil .ruleStart
  obtain ⟨ts, hts, _⟩ := hstart.feedAll hitems h
  subst hts
  exact ⟨ts, rfl, fun t ht => hitems t (List.mem_map_of_mem ht), h⟩

/-! ## §5. Refused texts. -/

/-- **How a text is refused**: behind tokens that are taken, at an item or at
the end. -/
inductive RefusedAt (pattern : String) (refusal : Refusal) : Prop where
  /-- An item is refused. -/
  | item {ts : List Token} {i : Item} {rest : List Item} {r : Reader} :
      itemsOf pattern = ts.map Item.token ++ i :: rest → (∀ t ∈ ts, t.Proper) →
      Reader.start.Reads ts r → r.feed i = .error refusal →
      requestsOf pattern = (ts.map Item.token, some i) → RefusedAt pattern refusal
  /-- The end is refused. -/
  | stop {ts : List Token} {r : Reader} :
      itemsOf pattern = ts.map Item.token → (∀ t ∈ ts, t.Proper) →
      Reader.start.Reads ts r → r.finish (endOf pattern) = .error refusal →
      requestsOf pattern = (ts.map Item.token, none) → RefusedAt pattern refusal

theorem refusedAt_of_readRules {pattern : String} {refusal : Refusal}
    (h : readRules pattern = .error refusal) : RefusedAt pattern refusal := by
  have hitems : ∀ t, Item.token t ∈ itemsOf pattern → t.Proper :=
    fun t ht => Cursor.proper_of_mem_items _ ht
  rcases Reader.start.requests_spec (itemsOf pattern) with ⟨r, hall, hreq⟩ |
    ⟨taken, i, rest, r, refused, hsplit, htaken, hrefused, hall, hreq⟩
  · obtain ⟨ts, hts, hproper, hreads⟩ := exists_tokens_of_feedAll hall hitems
    have hfinish : r.finish (endOf pattern) = .error refusal := by
      rw [readRules, hall] at h
      exact h
    refine .stop hts hproper hreads hfinish ?_
    rw [requestsOf, hreq, hts]
  · obtain ⟨ts, hts, hproper, hreads⟩ := exists_tokens_of_feedAll htaken
      fun t ht => hitems t (by rw [hsplit]; exact List.mem_append_left _ ht)
    have hsame : refused = refusal := by
      rw [readRules, hall] at h
      cases h
      rfl
    subst hsame hts
    exact .item hsplit hproper hreads hrefused hreq

/-- **A text without an automaton** is one whose rules cannot be read, and the
reader's reason is the one that is given. -/
theorem Nfa.exists_refusal_of_ofPattern {pattern : String} {e : CompileError}
    (h : Nfa.ofPattern? pattern = .error e) :
    ∃ refusal, readRules pattern = .error refusal ∧ e = .pattern refusal.error := by
  cases hread : readRules pattern with
  | error refusal =>
      rw [Nfa.ofPattern?_eq_error hread] at h
      cases h
      exact ⟨refusal, rfl, rfl⟩
  | ok rules =>
      obtain ⟨nfa, hnfa, _⟩ := Nfa.exists_ofPattern hread
      rw [h] at hnfa
      cases hnfa

/-- **A text without an automaton is refused at the earliest item.**  What was
taken before the last item asked for can be completed; with that item it
cannot, and if the end was asked for, what was taken is not accepted as it
is. -/
theorem Nfa.ofPattern_refused_earliest {pattern : String} {e : CompileError}
    (h : Nfa.ofPattern? pattern = .error e) :
    Viable (requestsOf pattern).1 ∧
      (∀ item, (requestsOf pattern).2 = some item →
        ¬ Viable ((requestsOf pattern).1 ++ [item])) ∧
      ((requestsOf pattern).2 = none →
        ¬ ∃ ts, Accepted ts ∧ (requestsOf pattern).1 = ts.map Item.token) := by
  obtain ⟨refusal, hread, _⟩ := Nfa.exists_refusal_of_ofPattern h
  cases refusedAt_of_readRules hread with
  | item _ hproper hreads hfeed hreq =>
      rw [hreq]
      refine ⟨viable_of_reads hproper hreads, ?_, ?_⟩
      · rintro _ ⟨rfl⟩
        exact not_viable_of_refused hreads hfeed
      · intro hnone
        cases hnone
  | stop _ hproper hreads hfinish hreq =>
      rw [hreq]
      refine ⟨viable_of_reads hproper hreads, ?_, ?_⟩
      · intro item hitem
        cases hitem
      · rintro - ⟨ts, hts, heq⟩
        rw [← Item.map_token_injective heq] at hts
        exact not_accepted_of_unfinished hreads hfinish hts

/-- The range of a class ends below its beginning, inside a group of the
second rule. -/
theorem Nfa.ofPattern_refused_earliest_range :
    Nfa.ofPattern? "^a$(b|[z-c]*)" = .error (.pattern (.invalidRange 122 99 8)) ∧
      Viable (requestsOf "^a$(b|[z-c]*)").1 ∧
      (∀ item, (requestsOf "^a$(b|[z-c]*)").2 = some item →
        ¬ Viable ((requestsOf "^a$(b|[z-c]*)").1 ++ [item])) ∧
      ((requestsOf "^a$(b|[z-c]*)").2 = none →
        ¬ ∃ ts, Accepted ts ∧ (requestsOf "^a$(b|[z-c]*)").1 = ts.map Item.token) := by
  have hread : readRules "^a$(b|[z-c]*)" =
      .error ⟨.invalidRange 122 99 8, [⟨true, .symbol 97, true⟩]⟩ := by decide +kernel
  have h := Nfa.ofPattern?_eq_error hread
  exact ⟨h, Nfa.ofPattern_refused_earliest h⟩

end LineScan
