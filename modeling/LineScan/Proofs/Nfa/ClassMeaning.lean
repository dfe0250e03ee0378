/-
  LineScan.Proofs.Nfa.ClassMeaning
  ────────────────────────────────
  **WHAT A CLASS IN A PATTERN MEANS.**

      … [ ^ body ] …
        │          └─ or the end of the text
        └─ the reader begins a class here

  The body is read in one go (`Bracket.read_class`).  If it is refused, so is
  the text, for the same reason.  If the text is a pattern, the class is part
  of its rules (`Reader.classes_subset_of_complete`), hence an edge of its
  automaton (`Nfa.exists_edge_of_ofRules`).

  Main result: `Nfa.class_meaning`.
-/
import LineScan.Proofs.Nfa.ClassEdges
import LineScan.Proofs.Nfa.OfPattern
import Mathlib.Data.List.TakeWhile

namespace LineScan

/-! ## §1. A class in a text. -/

/-- **The reader begins a class** at the bracket `opening`, with the items
`behind` still to be read. -/
def OpensClass (pattern : String) (opening : Token) (behind : List Item) : Prop :=
  ∃ (front : List Token) (rules : List Rule) (outer : Outer) (before : Branch),
    itemsOf pattern = (front ++ [opening]).map Item.token ++ behind ∧
      Reader.start.Reads (front ++ [opening])
        ⟨rules, .inBracket outer before opening.position .opened⟩

/-- **A class in a text.**  The items `behind` its opening bracket begin with
the mark of a complement, or with none, and with its body. -/
structure ClassAt (pattern : String) (opening : Token) (complement : Bool) (body : List Token)
    (behind further : List Item) : Prop where
  /-- The opening bracket begins a class. -/
  opens : OpensClass pattern opening behind
  /-- The mark and the body come next. -/
  split : ∃ mark, Mark .caret complement mark ∧
    behind = (mark ++ body).map Item.token ++ further
  /-- A `^` behind the opening bracket is the mark, not a part of the body. -/
  head : complement = false → ∀ t ∈ body.head?, t.kind ≠ .caret
  /-- The first closing bracket ends the body. -/
  inside : ∀ t ∈ body, t.kind ≠ .rightBracket
  /-- So does the end of the text, and nothing else. -/
  ends : EndsClass further

/-- Wherever the reader begins a class, there is one: the body ends at the first
closing bracket, or with the text. -/
theorem OpensClass.exists_classAt {pattern : String} {opening : Token} {inner : List Token}
    (h : OpensClass pattern opening (inner.map Item.token)) :
    ∃ complement body further,
      ClassAt pattern opening complement body (inner.map Item.token) further := by
  -- the mark is in front of the body, and the closing bracket in neither
  have hends : EndsClass
      ((inner.dropWhile fun t => t.kind != .rightBracket).map Item.token) := by
    intro item hitem
    rw [List.head?_map, Option.mem_def, Option.map_eq_some_iff] at hitem
    obtain ⟨t, ht, rfl⟩ := hitem
    have hstop := List.head?_dropWhile_not (fun t : Token => t.kind != .rightBracket) inner
    rw [ht] at hstop
    exact ⟨t, rfl, by simpa using hstop⟩
  have hinside : ∀ t ∈ inner.takeWhile fun t => t.kind != .rightBracket,
      t.kind ≠ .rightBracket := by
    intro t ht
    simpa using List.mem_takeWhile_imp ht
  have hsplit := List.takeWhile_append_dropWhile (p := fun t : Token => t.kind != .rightBracket)
    (l := inner)
  generalize (inner.takeWhile fun t => t.kind != .rightBracket) = body at hinside hsplit
  generalize (inner.dropWhile fun t => t.kind != .rightBracket) = rest at hends hsplit
  have hplain : (∀ t ∈ body.head?, t.kind ≠ .caret) → ∃ complement body further,
      ClassAt pattern opening complement body (inner.map Item.token) further := by
    intro hhead
    refine ⟨false, body, rest.map Item.token, h, ⟨[], .absent, ?_⟩, fun _ => hhead,
      hinside, hends⟩
    rw [← hsplit, List.nil_append, List.map_append]
  cases body with
  | nil => exact hplain (fun t ht => by cases ht)
  | cons t ts =>
      by_cases ht : t.kind = .caret
      · refine ⟨true, ts, rest.map Item.token, h, ⟨[t], .present ht, ?_⟩, ?_,
          fun u hu => hinside u (List.mem_cons_of_mem _ hu), hends⟩
        · rw [← hsplit, List.singleton_append, List.map_append]
        · intro hfalse
          cases hfalse
      · apply hplain
        intro u hu
        cases hu
        exact ht

/-! ## §2. How it is read. -/

namespace ClassAt

variable {pattern : String} {opening : Token} {complement : Bool} {body : List Token}
  {behind further : List Item}

theorem read_eq (h : ClassAt pattern opening complement body behind further) :
    Bracket.opened.read opening.position behind =
      match classComplaint? body with
      | some e => .error e
      | none => endClass opening.position ⟨classSet body, complement⟩ further := by
  obtain ⟨front, _, _, _, hitems, _⟩ := h.opens
  obtain ⟨mark, hmark, hbehind⟩ := h.split
  have hproper : ∀ t ∈ body, t.Proper := by
    intro t ht
    apply Cursor.proper_of_mem_items (Cursor.start pattern)
    show Item.token t ∈ itemsOf pattern
    rw [hitems, hbehind, List.map_append]
    simp [ht]
  rw [hbehind]
  exact Bracket.read_class hmark h.head h.inside hproper h.ends

/-- An inverted range is the only thing in a body that is refused as such. -/
theorem read_eq_invalidRange_iff (h : ClassAt pattern opening complement body behind further)
    {x y : Symbol} {p : Nat} :
    Bracket.opened.read opening.position behind = .error (.invalidRange x y p) ↔
      LeftmostInverted body x y p := by
  rw [h.read_eq, ← classComplaint?_eq_some]
  cases classComplaint? body with
  | some e => simp
  | none =>
      -- the end of the text is refused as an unterminated class
      cases further <;> simp [endClass]

/-- What the reader makes of the text depends on the class. -/
theorem exists_readRules (h : ClassAt pattern opening complement body behind further) :
    ∃ rules outer before, readRules pattern =
      Reader.afterClass rules outer before (endOf pattern)
        (Bracket.opened.read opening.position behind) := by
  obtain ⟨front, rules, outer, before, hitems, hreads⟩ := h.opens
  refine ⟨rules, outer, before, ?_⟩
  rw [Reader.readRules_eq_complete, hitems, hreads.complete_append, Reader.complete_inBracket]

theorem ofPattern?_eq_error (h : ClassAt pattern opening complement body behind further)
    {e : SyntaxError} (he : Bracket.opened.read opening.position behind = .error e) :
    Nfa.ofPattern? pattern = .error (.pattern e) := by
  obtain ⟨rules, outer, before, hread⟩ := h.exists_readRules
  rw [he] at hread
  exact Nfa.ofPattern?_eq_error hread

end ClassAt

/-- Some range of a body is inverted exactly when there is a leftmost one. -/
theorem exists_leftmostInverted_iff {body : List Token} :
    (∃ x y p, LeftmostInverted body x y p) ↔
      ∃ low dash high, .range low dash high ∈ classEntries body ∧ high.symbol < low.symbol := by
  constructor
  · rintro ⟨x, y, p, front, low, dash, high, back, hsplit, _, hlt, rfl, rfl, _⟩
    exact ⟨low, dash, high, by simp [hsplit], hlt⟩
  · rintro ⟨low, dash, high, hmem, hlt⟩
    have hsome : (classComplaint? body).isSome = true := by
      rw [classComplaint?, List.findSome?_isSome_iff]
      refine ⟨_, hmem, ?_⟩
      rw [ClassEntry.complaint?, if_pos hlt]
      rfl
    obtain ⟨e, he⟩ := Option.isSome_iff_exists.1 hsome
    obtain ⟨x, y, p, rfl⟩ := exists_of_classComplaint? he
    exact ⟨x, y, p, classComplaint?_eq_some.1 he⟩

/-! ## §3. What it means. -/

/-- **What is made of a class**, whose items behind the opening bracket at
`openedAt` are a mark or none, a body, and what follows. -/
structure ClassMeaning (pattern : String) (openedAt : Nat) (complement : Bool)
    (body : List Token) (behind further : List Item) : Prop where
  /-- It is refused for a range exactly when some range of its body ends below
  its beginning. -/
  refused_iff :
    (∃ x y p, Bracket.opened.read openedAt behind = .error (.invalidRange x y p)) ↔
      ∃ low dash high, .range low dash high ∈ classEntries body ∧ high.symbol < low.symbol
  /-- Then the leftmost one is named, with its ends and its dash. -/
  leftmost : ∀ x y p, Bracket.opened.read openedAt behind = .error (.invalidRange x y p) ↔
    LeftmostInverted body x y p
  /-- Without such a range the closing bracket completes the class.  The mark
  sets the complement and nothing else; the set holds the symbols of the
  entries, or those up to the blank if there is no entry. -/
  completed : ∀ closing rest, further = closing :: rest →
    (∀ entry ∈ classEntries body, entry.item.Valid) → ∃ set,
      Bracket.opened.read openedAt behind = .ok (⟨set, complement⟩, rest) ∧
        ∀ a : Symbol, set.contains a = true ↔ a ∈ bodySymbols body
  /-- What refuses the class refuses the text. -/
  refuses : ∀ e, Bracket.opened.read openedAt behind = .error e →
    Nfa.ofPattern? pattern = .error (.pattern e)
  /-- If the text is a pattern, the class has been completed, and some edge of
  the automaton is that class. -/
  stored : ∀ nfa, Nfa.ofPattern? pattern = .ok nfa → ∃ set rest,
    Bracket.opened.read openedAt behind = .ok (⟨set, complement⟩, rest) ∧
      (∀ a : Symbol, set.contains a = true ↔ a ∈ bodySymbols body) ∧
      ∃ i, (nfa.node i).edge = .cls ⟨set, complement⟩

namespace ClassAt

variable {pattern : String} {opening : Token} {complement : Bool} {body : List Token}
  {behind further : List Item}

theorem contains_classSet {a : Symbol} :
    (classSet body).contains a = true ↔ a ∈ bodySymbols body := by
  rw [← toSet_classSet]
  rfl

/-- A class that is completed has the set of its body. -/
theorem eq_of_read_eq_ok (h : ClassAt pattern opening complement body behind further)
    {c : CharClass} {rest : List Item}
    (hread : Bracket.opened.read opening.position behind = .ok (c, rest)) :
    c = ⟨classSet body, complement⟩ := by
  rw [h.read_eq] at hread
  cases hcomplaint : classComplaint? body with
  | some e =>
      rw [hcomplaint] at hread
      cases hread
  | none =>
      rw [hcomplaint] at hread
      cases further with
      | nil => cases hread
      | cons item rest =>
          cases hread
          rfl

/-- A class that is completed is a term, and stays a part of the rules. -/
theorem exists_edge (h : ClassAt pattern opening complement body behind further) {nfa : Nfa}
    (hnfa : Nfa.ofPattern? pattern = .ok nfa) {c : CharClass} {rest : List Item}
    (hread : Bracket.opened.read opening.position behind = .ok (c, rest)) :
    ∃ i, (nfa.node i).edge = .cls c := by
  obtain ⟨rules, hrules, hof⟩ := Nfa.exists_rules_of_ofPattern hnfa
  obtain ⟨rules', outer, before, hcomplete⟩ := h.exists_readRules
  rw [hread, hrules] at hcomplete
  apply Nfa.exists_edge_of_ofRules hof
  apply Reader.classes_subset_of_complete hcomplete.symm
  simp [Reader.classes, Phase.classes, Regex.classes]

end ClassAt

/-- **What a class in a text means**, and when it is refused.  Where the reader
begins a class, there is one, with a mark or none and a body. -/
theorem Nfa.class_meaning (pattern : String) (opening : Token) :
    (∀ inner : List Token, OpensClass pattern opening (inner.map Item.token) →
      ∃ complement body further,
        ClassAt pattern opening complement body (inner.map Item.token) further) ∧
    ∀ complement body behind further,
      ClassAt pattern opening complement body behind further →
        ClassMeaning pattern opening.position complement body behind further := by
  refine ⟨fun _ h => h.exists_classAt, ?_⟩
  intro complement body behind further h
  constructor
  case refused_iff =>
    rw [← exists_leftmostInverted_iff]
    simp only [h.read_eq_invalidRange_iff]
  case leftmost => exact fun _ _ _ => h.read_eq_invalidRange_iff
  case completed =>
    intro closing rest hfurther hvalid
    have hnone : classComplaint? body = none := by
      rw [classComplaint?, List.findSome?_eq_none_iff]
      intro entry hentry
      exact ClassEntry.complaint?_eq_none.2 (hvalid entry hentry)
    refine ⟨classSet body, ?_, fun a => ClassAt.contains_classSet⟩
    rw [h.read_eq, hnone, hfurther]
    rfl
  case refuses => exact fun _ he => h.ofPattern?_eq_error he
  case stored =>
    intro nfa hnfa
    cases hread : Bracket.opened.read opening.position behind with
    | error e =>
        -- a class that is refused is no part of a pattern
        rw [h.ofPattern?_eq_error hread] at hnfa
        cases hnfa
    | ok result =>
        obtain ⟨c, rest⟩ := result
        have hedge := h.exists_edge hnfa hread
        rw [h.eq_of_read_eq_ok hread] at hedge ⊢
        exact ⟨classSet body, rest, rfl, fun a => ClassAt.contains_classSet, hedge⟩

/-- The classes of `x[^+--a]` and of `[a-cz-b-a]`: a dash may end a range, and
the first of two inverted ranges is named. -/
theorem Nfa.class_meaning_dashes :
    (∀ nfa, Nfa.ofPattern? "x[^+--a]" = .ok nfa → ∃ set : SymbolSet,
      (∀ a : Symbol, set.contains a = true ↔ 43 ≤ a ∧ a ≤ 45 ∨ a = 97) ∧
      ∃ i, (nfa.node i).edge = .cls ⟨set, true⟩) ∧
    Nfa.ofPattern? "[a-cz-b-a]" = .error (.pattern (.invalidRange 122 98 5)) := by
  have hcomplement : ClassAt "x[^+--a]" ⟨.leftBracket, 91, 1⟩ true
      [⟨.plus, 43, 3⟩, ⟨.dash, 45, 4⟩, ⟨.dash, 45, 5⟩, ⟨.literal, 97, 6⟩]
      ([⟨.caret, 94, 2⟩, ⟨.plus, 43, 3⟩, ⟨.dash, 45, 4⟩, ⟨.dash, 45, 5⟩, ⟨.literal, 97, 6⟩,
        ⟨.rightBracket, 93, 7⟩].map Item.token) [.token ⟨.rightBracket, 93, 7⟩] := by
    refine ⟨⟨[⟨.literal, 120, 0⟩], [], ⟨false, []⟩, ⟨none, some (.symbol 120)⟩, ?_, ?_⟩,
      ⟨[⟨.caret, 94, 2⟩], .present rfl, rfl⟩, by decide, by decide, ?_⟩
    · decide +kernel
    · rfl
    · intro item hitem
      cases hitem
      exact ⟨_, rfl, rfl⟩
  have hinverted : ClassAt "[a-cz-b-a]" ⟨.leftBracket, 91, 0⟩ false
      [⟨.literal, 97, 1⟩, ⟨.dash, 45, 2⟩, ⟨.literal, 99, 3⟩, ⟨.literal, 122, 4⟩, ⟨.dash, 45, 5⟩,
        ⟨.literal, 98, 6⟩, ⟨.dash, 45, 7⟩, ⟨.literal, 97, 8⟩]
      ([⟨.literal, 97, 1⟩, ⟨.dash, 45, 2⟩, ⟨.literal, 99, 3⟩, ⟨.literal, 122, 4⟩, ⟨.dash, 45, 5⟩,
        ⟨.literal, 98, 6⟩, ⟨.dash, 45, 7⟩, ⟨.literal, 97, 8⟩,
        ⟨.rightBracket, 93, 9⟩].map Item.token) [.token ⟨.rightBracket, 93, 9⟩] := by
    refine ⟨⟨[], [], ⟨false, []⟩, ⟨none, none⟩, ?_, ?_⟩, ⟨[], .absent, rfl⟩, by decide,
      by decide, ?_⟩
    · decide +kernel
    · rfl
    · intro item hitem
      cases hitem
      exact ⟨_, rfl, rfl⟩
  refine ⟨?_, ?_⟩
  · intro nfa hnfa
    have hmeaning := (Nfa.class_meaning "x[^+--a]" _).2 _ _ _ _ hcomplement
    obtain ⟨set, _, _, hset, hedge⟩ := hmeaning.stored nfa hnfa
    refine ⟨set, ?_, hedge⟩
    intro a
    rw [hset]
    show a ∈ symbolsOf ([.range 43 45] ++ [.single 97]) ↔ _
    rw [symbolsOf_append, symbolsOf_singleton, symbolsOf_singleton]
    rfl
  · have hmeaning := (Nfa.class_meaning "[a-cz-b-a]" _).2 _ _ _ _ hinverted
    apply hmeaning.refuses
    rw [hmeaning.leftmost]
    exact ⟨[.range ⟨.literal, 97, 1⟩ ⟨.dash, 45, 2⟩ ⟨.literal, 99, 3⟩], _, _, _, _, rfl,
      by simp [ClassEntry.item, ClassItem.Valid], by decide, rfl, rfl, rfl⟩

end LineScan
