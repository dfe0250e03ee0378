/-
  LineScan.Proofs.Pattern.ClassBody
  ─────────────────────────────────
  **READING A CLASS, AND ITS ENTRIES.**

  A class is read token by token, the grammar cuts its body into entries by
  looking ahead.  The invariant between the two is a `Cut`: some entries are
  settled, whatever comes next, and the tokens that the reader still has in
  mind stand before what comes next.

      memory              in mind
      nothing             no token
      single low          one
      pending low         one and a dash

  A step settles an entry, takes a token into mind, or shows that no body
  goes on this way (`Cut.step`).  The closing bracket settles the rest
  (`Cut.close`).
-/
import LineScan.Pattern.Bracket
import LineScan.Proofs.Pattern.Grammar
import LineScan.Proofs.Pattern.Lexer

namespace LineScan

/-! ## §1. Sets of symbols. -/

/-- The members of a bit set. -/
def BitSet.toSet {c : Nat} (s : BitSet c) : Set (Fin c) := {i | s.contains i = true}

@[simp] theorem BitSet.toSet_empty {c : Nat} : (BitSet.empty c).toSet = ∅ := by
  ext i
  simp [toSet]

@[simp] theorem BitSet.toSet_insert {c : Nat} (s : BitSet c) (i : Fin c) :
    (s.insert i).toSet = s.toSet ∪ {i} := by
  ext k
  show (s.insert i).contains k = true ↔ s.contains k = true ∨ k = i
  rw [contains_insert, Bool.or_eq_true, decide_eq_true_eq, Fin.ext_iff]

@[simp] theorem BitSet.toSet_insertRange {c : Nat} (s : BitSet c) (low high : Fin c) :
    (s.insertRange low high).toSet = s.toSet ∪ Set.Icc low high := by
  ext k
  show (s.insertRange low high).contains k = true ↔
    s.contains k = true ∨ low.val ≤ k.val ∧ k.val ≤ high.val
  rw [contains_insertRange, Bool.or_eq_true, decide_eq_true_eq]
  simp only [k.isLt, and_true]

theorem CharClass.toSet_blanks : CharClass.blanks.toSet = LineScan.blanks := by
  ext a
  show CharClass.blanks.contains a = true ↔ a.val ≤ 0x20
  rw [CharClass.blanks, BitSet.contains_insertRange]
  simp

/-- A class in terms of its stored set. -/
theorem Edge.symbols_cls (set : SymbolSet) (complement : Bool) :
    (Edge.cls ⟨set, complement⟩).symbols = if complement then (set.toSet)ᶜ else set.toSet := by
  ext a
  rw [Edge.mem_symbols_cls]
  cases complement <;> simp [BitSet.toSet]

/-! ## §2. Entries. -/

@[simp] theorem symbolsOf_nil : symbolsOf [] = ∅ := by
  ext a
  simp [symbolsOf]

@[simp] theorem symbolsOf_append (items further : List ClassItem) :
    symbolsOf (items ++ further) = symbolsOf items ∪ symbolsOf further := by
  ext a
  simp only [symbolsOf, List.mem_append, Set.mem_ofPred_eq, Set.mem_union]
  constructor
  · intro h
    obtain ⟨item, hi | hi, ha⟩ := h
    · exact .inl ⟨item, hi, ha⟩
    · exact .inr ⟨item, hi, ha⟩
  · intro h
    rcases h with ⟨item, hi, ha⟩ | ⟨item, hi, ha⟩
    · exact ⟨item, .inl hi, ha⟩
    · exact ⟨item, .inr hi, ha⟩

@[simp] theorem symbolsOf_singleton (item : ClassItem) : symbolsOf [item] = item.symbols := by
  ext a
  simp [symbolsOf]

theorem classItems_range {a d b : Token} (h : d.kind = .dash) (rest : List Token) :
    classItems (a :: d :: b :: rest) = .range a.symbol b.symbol :: classItems rest := by
  rw [classItems, if_pos h]

theorem classItems_single {a b : Token} (h : b.kind ≠ .dash) (rest : List Token) :
    classItems (a :: b :: rest) = .single a.symbol :: classItems (b :: rest) := by
  cases rest with
  | nil => rfl
  | cons c rest => rw [classItems, if_neg h]

/-! ## §3. The invariant of reading. -/

/-- The tokens that a reader of a class has in mind. -/
inductive Remembers : Memory → List Token → Prop where
  | nothing : Remembers .nothing []
  | single {a : Token} : Remembers (.single a.symbol) [a]
  | pending {a d : Token} {position : Nat} : d.kind = .dash → d.symbol = Symbol.dash →
      Remembers (.pending a.symbol position) [a, d]

/-- **A body of which a part has been read**: `items` are settled, `mind` is
what the reader has in mind. -/
structure Cut (set : SymbolSet) (memory : Memory) (body : List Token) (items : List ClassItem)
    (mind : List Token) : Prop where
  /-- The memory speaks of these tokens. -/
  remembers : Remembers memory mind
  /-- Whatever follows, these entries stay. -/
  items_append : ∀ rest, classItems (body ++ rest) = items ++ classItems (mind ++ rest)
  /-- No range among them ends below its beginning. -/
  valid : ∀ item ∈ items, item.Valid
  /-- Their symbols are in the set, and the one in mind is too. -/
  toSet : set.toSet = symbolsOf items ∪ {a | ∃ t ∈ mind.head?, a = t.symbol}

theorem Cut.empty : Cut (BitSet.empty _) .nothing [] [] [] := by
  refine ⟨.nothing, fun rest => rfl, ?_, by simp⟩
  intro item h
  cases h

/-- A symbol that stands for itself is taken into mind; what was in mind is
settled. -/
theorem Cut.single {set : SymbolSet} {memory : Memory} {body : List Token}
    {items further : List ClassItem} {mind : List Token} (h : Cut set memory body items mind)
    (t : Token)
    (hfurther : ∀ rest, classItems (mind ++ t :: rest) = further ++ classItems (t :: rest))
    (hvalid : ∀ item ∈ further, item.Valid)
    (hset : {a | ∃ t ∈ mind.head?, a = t.symbol} = symbolsOf further) :
    Cut (set.insert t.symbol) (.single t.symbol) (body ++ [t]) (items ++ further) [t] := by
  refine ⟨.single, ?_, ?_, ?_⟩
  · intro rest
    rw [List.append_assoc, h.items_append, List.singleton_append, hfurther, List.append_assoc]
  · intro item hi
    rcases List.mem_append.1 hi with hi | hi
    · exact h.valid item hi
    · exact hvalid item hi
  · -- what was in mind is settled, and the symbol takes its place
    rw [BitSet.toSet_insert, h.toSet, hset, symbolsOf_append]
    congr 1
    ext a
    simp

/-- A dash behind a single symbol waits for the end of its range. -/
theorem Cut.await {set : SymbolSet} {body : List Token} {items : List ClassItem} {a t : Token}
    (h : Cut set (.single a.symbol) body items [a]) (ht : t.Proper) (hd : t.kind = .dash) :
    Cut set (.pending a.symbol t.position) (body ++ [t]) items [a, t] := by
  refine ⟨.pending hd (ht.symbol_eq_dash hd), ?_, h.valid, h.toSet⟩
  intro rest
  rw [List.append_assoc, h.items_append]
  rfl

theorem Cut.items_append_range {set : SymbolSet} {memory : Memory} {body : List Token}
    {items : List ClassItem} {a d : Token} (h : Cut set memory body items [a, d])
    (hd : d.kind = .dash) (t : Token) (rest : List Token) :
    classItems (body ++ t :: rest) = items ++ .range a.symbol t.symbol :: classItems rest := by
  rw [h.items_append]
  congr 1
  exact classItems_range hd rest

/-- The end of a range settles it. -/
theorem Cut.range {set : SymbolSet} {position : Nat} {body : List Token}
    {items : List ClassItem} {a d t : Token}
    (h : Cut set (.pending a.symbol position) body items [a, d]) (hd : d.kind = .dash)
    (hle : a.symbol ≤ t.symbol) :
    Cut (set.insertRange a.symbol t.symbol) .nothing (body ++ [t])
      (items ++ [.range a.symbol t.symbol]) [] := by
  refine ⟨.nothing, ?_, ?_, ?_⟩
  · intro rest
    rw [List.append_assoc, List.singleton_append, h.items_append_range hd]
    simp
  · intro item hi
    rcases List.mem_append.1 hi with hi | hi
    · exact h.valid item hi
    · rw [List.mem_singleton.1 hi]
      exact hle
  · -- the low end of the range was in the set already
    have hlow : {b | ∃ t ∈ [a, d].head?, b = t.symbol} ⊆ Set.Icc a.symbol t.symbol := by
      intro b hb
      obtain ⟨c, hc, hbc⟩ := hb
      cases hc
      rw [hbc]
      exact ⟨le_refl _, hle⟩
    have hnone : {b | ∃ t ∈ ([] : List Token).head?, b = t.symbol} = ∅ := by simp
    rw [BitSet.toSet_insertRange, h.toSet, symbolsOf_append, symbolsOf_singleton, hnone,
      Set.union_empty, Set.union_assoc, Set.union_eq_self_of_subset_left hlow]
    rfl

/-- **One token of a body**: it is read, or no body goes on with it. -/
theorem Cut.step {set : SymbolSet} {memory : Memory} {body : List Token}
    {items : List ClassItem} {mind : List Token} (h : Cut set memory body items mind)
    (complement : Bool) {t : Token} (ht : t.Proper) (hk : t.kind ≠ .rightBracket) :
    (∃ set' memory' items' mind', Bracket.stepBody complement set memory t =
        .ok (.more (.body complement set' memory')) ∧ Cut set' memory' (body ++ [t]) items' mind') ∨
      (∃ e, Bracket.stepBody complement set memory t = .error e ∧
        ∀ rest, ∃ item ∈ classItems (body ++ t :: rest), ¬ item.Valid) := by
  have hrem := h.remembers
  cases hrem with
  | nothing =>
      refine .inl ⟨set.insert t.symbol, .single t.symbol, items ++ [], [t], ?_, ?_⟩
      · unfold Bracket.stepBody
        split <;> simp_all [Bracket.single]
      · apply h.single t (fun rest => rfl)
        · intro item hi
          cases hi
        · simp
  | @single a =>
      -- only a dash leaves the symbol before it open
      by_cases hd : t.kind = .dash
      · exact .inl ⟨_, _, _, _, by simp only [Bracket.stepBody, hd], h.await ht hd⟩
      · refine .inl ⟨set.insert t.symbol, .single t.symbol, items ++ [.single a.symbol], [t], ?_, ?_⟩
        · unfold Bracket.stepBody
          split <;> simp_all [Bracket.single]
        · apply h.single t
          · intro rest
            exact classItems_single hd rest
          · intro item hi
            rw [List.mem_singleton.1 hi]
            trivial
          · simp [ClassItem.symbols]
  | @pending a d position hd _ =>
      have hstep : Bracket.stepBody complement set (.pending a.symbol position) t =
          if t.symbol < a.symbol then .error (.invalidRange a.symbol t.symbol position)
          else .ok (.more (.body complement (set.insertRange a.symbol t.symbol) .nothing)) := by
        unfold Bracket.stepBody
        split <;> simp_all
      by_cases hlt : t.symbol < a.symbol
      · refine .inr ⟨_, by rw [hstep, if_pos hlt], ?_⟩
        intro rest
        refine ⟨.range a.symbol t.symbol, ?_, not_le.2 hlt⟩
        rw [h.items_append_range hd]
        simp
      · exact .inl ⟨_, _, _, _, by rw [hstep, if_neg hlt], h.range hd (not_lt.1 hlt)⟩

/-- **The closing bracket** completes the class with the symbols of all
entries. -/
theorem Cut.close {set : SymbolSet} {memory : Memory} {body : List Token}
    {items : List ClassItem} {mind : List Token} (h : Cut set memory body items mind)
    (complement : Bool) {t : Token} (hk : t.kind = .rightBracket) :
    (∀ item ∈ classItems body, item.Valid) ∧
      ∃ final, Bracket.stepBody complement set memory t = .ok (.closed ⟨final, complement⟩) ∧
        final.toSet = symbolsOf (classItems body) := by
  have hbody : classItems body = items ++ classItems mind := by
    have := h.items_append []
    rwa [List.append_nil, List.append_nil] at this
  -- what is left in mind are single symbols
  have hvalid : (∀ item ∈ classItems mind, item.Valid) →
      ∀ item ∈ classItems body, item.Valid := by
    intro hm item hi
    rw [hbody] at hi
    rcases List.mem_append.1 hi with hi | hi
    · exact h.valid item hi
    · exact hm item hi
  have hrem := h.remembers
  rw [hbody, symbolsOf_append]
  rw [hbody] at hvalid
  cases hrem with
  | nothing =>
      refine ⟨hvalid (by simp [classItems]), set, by simp only [Bracket.stepBody, hk], ?_⟩
      rw [h.toSet]
      simp [classItems]
  | @single a =>
      refine ⟨hvalid (by simp [classItems, ClassItem.Valid]), set,
        by simp only [Bracket.stepBody, hk], ?_⟩
      rw [h.toSet]
      simp [classItems, ClassItem.symbols]
  | @pending a d position hd hdash =>
      -- a range without an end was a symbol and a dash
      refine ⟨hvalid (by simp [classItems, ClassItem.Valid]), set.insert Symbol.dash,
        by simp only [Bracket.stepBody, hk], ?_⟩
      rw [BitSet.toSet_insert, h.toSet]
      have hmind : classItems [a, d] = [.single a.symbol] ++ [.single d.symbol] := rfl
      rw [hmind, symbolsOf_append, symbolsOf_singleton, symbolsOf_singleton, hdash,
        Set.union_assoc]
      simp [ClassItem.symbols]

/-! ## §4. Whole classes. -/

theorem ClassText.mark_append {complement : Bool} {mark body : List Token}
    (hmark : Mark .caret complement mark)
    (hhead : complement = false → ∀ t ∈ body.head?, t.kind ≠ .caret) (hbody : ClassBody body) :
    ClassText (mark ++ body) (if complement then (bodySymbols body)ᶜ else bodySymbols body) := by
  cases hmark with
  | absent => exact .plain (hhead rfl) hbody
  | present hk => exact .complement hk hbody

/-- Whether a class begins with the mark of a complement shows what its body
is. -/
theorem ClassText.eq_of_mark_append {complement : Bool} {mark body : List Token} {S : Set Symbol}
    (hmark : Mark .caret complement mark)
    (hhead : complement = false → ∀ t ∈ body.head?, t.kind ≠ .caret)
    (h : ClassText (mark ++ body) S) :
    ClassBody body ∧ S = if complement then (bodySymbols body)ᶜ else bodySymbols body := by
  generalize hts : mark ++ body = ts at h
  cases hmark with
  | absent =>
      cases h with
      | plain _ hbody =>
          subst hts
          exact ⟨hbody, rfl⟩
      | complement hk _ =>
          have hbody : body = _ :: _ := hts
          rw [hbody] at hhead
          exact absurd hk (hhead rfl _ rfl)
  | present hk =>
      cases h with
      | plain hno _ =>
          rw [← hts] at hno
          exact absurd hk (hno _ rfl)
      | complement _ hbody =>
          cases hts
          exact ⟨hbody, rfl⟩

/-- A class means one set of symbols only. -/
theorem ClassText.unique {ts : List Token} {S S' : Set Symbol} (h : ClassText ts S)
    (h' : ClassText ts S') : S' = S := by
  cases h with
  | plain hmark _ =>
      exact (eq_of_mark_append .absent (fun _ => hmark) h').2
  | complement hmark _ =>
      exact (eq_of_mark_append (.present hmark) (fun h => by cases h) h').2

theorem ClassText.kind_ne {ts : List Token} {S : Set Symbol} (h : ClassText ts S) {t : Token}
    (ht : t ∈ ts) : t.kind ≠ .rightBracket := by
  cases h with
  | plain _ hbody => exact hbody.inside t ht
  | complement hmark hbody =>
      rcases List.mem_cons.1 ht with ht | ht
      · rw [ht, hmark]
        decide
      · exact hbody.inside t ht

/-- **What a reader of a class has read** since the opening bracket. -/
inductive Bracket.HasRead : Bracket → List Token → Prop where
  | opened : HasRead .opened []
  | negated {mark : Token} : mark.kind = .caret → HasRead .negated [mark]
  | body {complement : Bool} {mark body : List Token} {set : SymbolSet} {memory : Memory}
      {items : List ClassItem} {mind : List Token} :
      Mark .caret complement mark → body ≠ [] →
      (complement = false → ∀ t ∈ body.head?, t.kind ≠ .caret) →
      (∀ t ∈ body, t.kind ≠ .rightBracket) → Cut set memory body items mind →
      HasRead (.body complement set memory) (mark ++ body)

namespace Bracket

variable {complement : Bool} {mark body : List Token} {set : SymbolSet} {memory : Memory}
  {items : List ClassItem} {mind : List Token} {t : Token}

/-- A token of the body, the first one included. -/
theorem hasRead_stepBody (hmark : Mark .caret complement mark)
    (hhead : complement = false → ∀ u ∈ (body ++ [t]).head?, u.kind ≠ .caret)
    (hinside : ∀ u ∈ body, u.kind ≠ .rightBracket) (h : Cut set memory body items mind)
    (ht : t.Proper) (hk : t.kind ≠ .rightBracket) :
    (∃ b, stepBody complement set memory t = .ok (.more b) ∧ b.HasRead (mark ++ body ++ [t])) ∨
      (∃ e, stepBody complement set memory t = .error e ∧
        ∀ rest S, ¬ ClassText (mark ++ body ++ t :: rest) S) := by
  rcases h.step complement ht hk with
    ⟨set', memory', items', mind', hstep, hcut⟩ | ⟨e, hstep, hinvalid⟩
  · refine .inl ⟨_, hstep, ?_⟩
    rw [List.append_assoc]
    refine .body hmark (by simp) hhead ?_ hcut
    intro u hu
    rcases List.mem_append.1 hu with hu | hu
    · exact hinside u hu
    · rwa [List.mem_singleton.1 hu]
  · refine .inr ⟨e, hstep, ?_⟩
    intro rest S hclass
    rw [List.append_assoc] at hclass
    have hhead' : complement = false → ∀ u ∈ (body ++ t :: rest).head?, u.kind ≠ .caret := by
      intro hc
      have := hhead hc
      cases body <;> simpa using this
    obtain ⟨item, hi, hbad⟩ := hinvalid rest
    exact hbad ((hclass.eq_of_mark_append hmark hhead').1.valid item hi)

theorem stepFirst_eq (hk : t.kind ≠ .rightBracket) :
    stepFirst complement t = stepBody complement (BitSet.empty _) .nothing t := by
  unfold stepFirst
  split
  · exact absurd ‹_› hk
  · rfl

/-- **One token of a class**: it is read, or no class goes on with it. -/
theorem HasRead.step {b : Bracket} {us : List Token} (h : b.HasRead us) (ht : t.Proper)
    (hk : t.kind ≠ .rightBracket) :
    (∃ b', b.step t = .ok (.more b') ∧ b'.HasRead (us ++ [t])) ∨
      (∃ e, b.step t = .error e ∧ ∀ rest S, ¬ ClassText (us ++ t :: rest) S) := by
  cases h with
  | opened =>
      by_cases hc : t.kind = .caret
      · exact .inl ⟨.negated, by rw [Bracket.step, if_pos hc], .negated hc⟩
      · rw [Bracket.step, if_neg hc, stepFirst_eq hk]
        refine hasRead_stepBody .absent ?_ (fun u hu => by cases hu) Cut.empty ht hk
        intro _ u hu
        cases hu
        exact hc
  | negated hm =>
      rw [Bracket.step, stepFirst_eq hk]
      exact hasRead_stepBody (.present hm) (fun h => by cases h) (fun u hu => by cases hu)
        Cut.empty ht hk
  | body hmark hne hhead hinside hcut =>
      refine hasRead_stepBody hmark ?_ hinside hcut ht hk
      intro hc
      have := hhead hc
      rw [List.head?_append_of_ne_nil _ hne]
      exact this

/-- **The closing bracket** ends what is a class. -/
theorem HasRead.close {b : Bracket} {us : List Token} (h : b.HasRead us)
    (hk : t.kind = .rightBracket) :
    ∃ c, b.step t = .ok (.closed c) ∧ ClassText us (Edge.cls c).symbols := by
  have hempty : ∀ complement, (Edge.cls ⟨CharClass.blanks, complement⟩).symbols =
      if complement then (bodySymbols [])ᶜ else bodySymbols [] := by
    intro complement
    rw [Edge.symbols_cls, CharClass.toSet_blanks]
    rfl
  have hnil : ClassBody [] := ⟨List.forall_mem_nil _, List.forall_mem_nil _⟩
  cases h with
  | opened =>
      have hc : t.kind ≠ .caret := by rw [hk]; decide
      refine ⟨⟨CharClass.blanks, false⟩, ?_, ?_⟩
      · rw [Bracket.step, if_neg hc, stepFirst, hk]
      · rw [hempty]
        exact ClassText.mark_append .absent (fun _ u hu => by cases hu) hnil
  | negated hm =>
      refine ⟨⟨CharClass.blanks, true⟩, ?_, ?_⟩
      · rw [Bracket.step, stepFirst, hk]
      · rw [hempty]
        exact ClassText.mark_append (.present hm) (fun h => by cases h) hnil
  | @body complement mark body _ _ _ _ hmark hne hhead hinside hcut =>
      obtain ⟨hvalid, final, hstep, hfinal⟩ := hcut.close complement hk
      refine ⟨_, hstep, ?_⟩
      have hsymbols : final.toSet = bodySymbols body := by
        rw [hfinal]
        cases body with
        | nil => exact absurd rfl hne
        | cons a rest => rfl
      rw [Edge.symbols_cls, hsymbols]
      exact ClassText.mark_append hmark hhead ⟨hinside, hvalid⟩

end Bracket

end LineScan
