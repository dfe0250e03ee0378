/-
  LineScan.Proofs.Pattern.ClassEntries
  ────────────────────────────────────
  **A CLASS, READ AT ONE STROKE.**

  The reader takes a class token by token and may be left at any of them.
  `Bracket.read` takes all items behind the opening bracket, as far as the
  class goes, and says in the end what has become of it: a class and the items
  behind it, or a complaint.  It is what the reader does from the opening
  bracket on (`Reader.complete_inBracket`).

  The body falls into entries from left to right.  Unlike the items of the
  grammar an entry keeps its tokens, so it can be blamed:

      x - y        a range, when `-` is a dash; `y` may be any token
      x            anything else stands for itself

  What is read is then one equation (`Bracket.read_class`): the first entry
  that is a range with its ends the wrong way round is refused, and if there
  is none, the class holds the symbols of all entries.
-/
import LineScan.Proofs.Pattern.Completeness

namespace LineScan

/-! ## §1. Entries. -/

/-- An entry in the body of a class, with the tokens it is made of. -/
inductive ClassEntry where
  /-- A token that stands for itself. -/
  | single (t : Token)
  /-- A dash between two tokens. -/
  | range (low dash high : Token)

namespace ClassEntry

/-- What the entry means. -/
def item : ClassEntry → ClassItem
  | .single t => .single t.symbol
  | .range low _ high => .range low.symbol high.symbol

/-- The complaint about a range that ends below its beginning. -/
def complaint? : ClassEntry → Option SyntaxError
  | .single _ => none
  | .range low dash high =>
      if high.symbol < low.symbol then
        some (.invalidRange low.symbol high.symbol dash.position)
      else none

/-- Adds the symbols of the entry to a set. -/
def addTo (set : SymbolSet) : ClassEntry → SymbolSet
  | .single t => set.insert t.symbol
  | .range low _ high => set.insertRange low.symbol high.symbol

theorem toSet_addTo (set : SymbolSet) (entry : ClassEntry) :
    (addTo set entry).toSet = set.toSet ∪ entry.item.symbols := by
  cases entry with
  | single t => exact BitSet.toSet_insert set t.symbol
  | range low dash high => exact BitSet.toSet_insertRange set low.symbol high.symbol

theorem complaint?_eq_none {entry : ClassEntry} : entry.complaint? = none ↔ entry.item.Valid := by
  cases entry with
  | single t => exact ⟨fun _ => trivial, fun _ => rfl⟩
  | range low dash high =>
      show (if high.symbol < low.symbol then some _ else none) = none ↔ low.symbol ≤ high.symbol
      rw [← not_lt]
      split <;> simp_all

theorem complaint?_eq_some {entry : ClassEntry} {x y : Symbol} {p : Nat} :
    entry.complaint? = some (.invalidRange x y p) ↔
      ∃ low dash high, entry = .range low dash high ∧ y < x ∧
        x = low.symbol ∧ y = high.symbol ∧ p = dash.position := by
  cases entry with
  | single t => simp [complaint?]
  | range low dash high =>
      show (if high.symbol < low.symbol then some _ else none) = _ ↔ _
      by_cases h : high.symbol < low.symbol
      · rw [if_pos h]
        constructor
        · intro he
          cases he
          exact ⟨low, dash, high, rfl, h, rfl, rfl, rfl⟩
        · rintro ⟨_, _, _, he, _, rfl, rfl, rfl⟩
          cases he
          rfl
      · rw [if_neg h]
        constructor
        · intro he
          cases he
        · rintro ⟨_, _, _, he, hlt, rfl, rfl, rfl⟩
          cases he
          exact absurd hlt h

end ClassEntry

/-- **The entries of a body**, from left to right. -/
def classEntries : List Token → List ClassEntry
  | [] => []
  | [a] => [.single a]
  | [a, d] => [.single a, .single d]
  | a :: d :: b :: rest =>
      if d.kind = .dash then .range a d b :: classEntries rest
      else .single a :: classEntries (d :: b :: rest)

/-- The entries mean what the grammar makes of the body. -/
theorem map_item_classEntries (body : List Token) :
    (classEntries body).map ClassEntry.item = classItems body := by
  induction body using classEntries.induct with
  | case1 => rfl
  | case2 a => rfl
  | case3 a d => rfl
  | case4 a d b rest hd ih =>
      rw [classEntries, if_pos hd, classItems, if_pos hd, List.map_cons, ih]
      rfl
  | case5 a d b rest hd ih =>
      rw [classEntries, if_neg hd, classItems, if_neg hd, List.map_cons, ih]
      rfl

/-- The symbols of some entries, added to a set. -/
theorem toSet_foldl_addTo (entries : List ClassEntry) (set : SymbolSet) :
    (entries.foldl ClassEntry.addTo set).toSet =
      set.toSet ∪ symbolsOf (entries.map ClassEntry.item) := by
  induction entries generalizing set with
  | nil => simp
  | cons entry entries ih =>
      have hcons : symbolsOf ((entry :: entries).map ClassEntry.item) =
          entry.item.symbols ∪ symbolsOf (entries.map ClassEntry.item) := by
        rw [List.map_cons, ← List.singleton_append, symbolsOf_append, symbolsOf_singleton]
      rw [List.foldl_cons, ih, ClassEntry.toSet_addTo, hcons, Set.union_assoc]

/-- **The set of a body**; an empty one means the symbols up to the blank. -/
def classSet : List Token → SymbolSet
  | [] => CharClass.blanks
  | a :: rest => (classEntries (a :: rest)).foldl ClassEntry.addTo (BitSet.empty _)

theorem toSet_classSet (body : List Token) : (classSet body).toSet = bodySymbols body := by
  cases body with
  | nil => exact CharClass.toSet_blanks
  | cons a rest =>
      rw [classSet, toSet_foldl_addTo, BitSet.toSet_empty, Set.empty_union,
        map_item_classEntries]
      rfl

/-- **The complaint about a body**, which is that about its leftmost bad
range. -/
def classComplaint? (body : List Token) : Option SyntaxError :=
  (classEntries body).findSome? ClassEntry.complaint?

/-- The leftmost range of a body that ends below its beginning goes from `x`
down to `y`, with its dash at `p`. -/
def LeftmostInverted (body : List Token) (x y : Symbol) (p : Nat) : Prop :=
  ∃ front low dash high back, classEntries body = front ++ .range low dash high :: back ∧
    (∀ entry ∈ front, entry.item.Valid) ∧ y < x ∧
    x = low.symbol ∧ y = high.symbol ∧ p = dash.position

theorem classComplaint?_eq_some {body : List Token} {x y : Symbol} {p : Nat} :
    classComplaint? body = some (.invalidRange x y p) ↔ LeftmostInverted body x y p := by
  rw [classComplaint?, List.findSome?_eq_some_iff]
  constructor
  · rintro ⟨front, entry, back, hsplit, hentry, hfront⟩
    obtain ⟨low, dash, high, rfl, hlt, hx, hy, hp⟩ := ClassEntry.complaint?_eq_some.1 hentry
    exact ⟨front, low, dash, high, back, hsplit,
      (fun e he => ClassEntry.complaint?_eq_none.1 (hfront e he)), hlt, hx, hy, hp⟩
  · rintro ⟨front, low, dash, high, back, hsplit, hfront, hlt, hx, hy, hp⟩
    exact ⟨front, .range low dash high, back, hsplit,
      ClassEntry.complaint?_eq_some.2 ⟨low, dash, high, rfl, hlt, hx, hy, hp⟩,
      fun e he => ClassEntry.complaint?_eq_none.2 (hfront e he)⟩

/-- Nothing else is complained about. -/
theorem exists_of_classComplaint? {body : List Token} {e : SyntaxError}
    (h : classComplaint? body = some e) : ∃ x y p, e = .invalidRange x y p := by
  obtain ⟨_, entry, _, _, hentry, _⟩ := List.findSome?_eq_some_iff.1 h
  cases entry with
  | single t => cases hentry
  | range low dash high =>
      rw [ClassEntry.complaint?] at hentry
      split at hentry
      · cases hentry
        exact ⟨_, _, _, rfl⟩
      · cases hentry

/-! ## §2. Reading as far as the class goes. -/

/-- **Reads a class** behind its opening bracket at `openedAt`, and returns it
with the items behind it. -/
def Bracket.read (openedAt : Nat) :
    Bracket → List Item → Except SyntaxError (CharClass × List Item)
  | _, [] => .error (.unterminatedClass openedAt)
  | _, .foreign b p :: _ => .error (.byteOutOfRange b p)
  | bracket, .token t :: rest =>
      match bracket.step t with
      | .error e => .error e
      | .ok (.more bracket) => bracket.read openedAt rest
      | .ok (.closed c) => .ok (c, rest)

/-- What follows a body: nothing, or the closing bracket. -/
def EndsClass (further : List Item) : Prop :=
  ∀ item ∈ further.head?, ∃ t : Token, item = .token t ∧ t.kind = .rightBracket

/-- The end of a class whose body is complete. -/
def endClass (openedAt : Nat) (c : CharClass) :
    List Item → Except SyntaxError (CharClass × List Item)
  | [] => .error (.unterminatedClass openedAt)
  | _ :: rest => .ok (c, rest)

namespace Bracket

variable {openedAt : Nat} {complement : Bool} {set : SymbolSet} {memory : Memory}
  {body mark : List Token} {t : Token} {further rest : List Item}

theorem read_more {bracket bracket' : Bracket} (h : bracket.step t = .ok (.more bracket')) :
    bracket.read openedAt (.token t :: rest) = bracket'.read openedAt rest := by
  rw [read, h]

theorem read_refused {bracket : Bracket} {e : SyntaxError} (h : bracket.step t = .error e) :
    bracket.read openedAt (.token t :: rest) = .error e := by
  rw [read, h]

theorem read_closed {bracket : Bracket} {c : CharClass} (h : bracket.step t = .ok (.closed c)) :
    bracket.read openedAt (.token t :: rest) = .ok (c, rest) := by
  rw [read, h]

/-- A class is read to its end, where the closing bracket makes `c` of it. -/
theorem read_end {bracket : Bracket} {c : CharClass}
    (hclose : ∀ t : Token, t.kind = .rightBracket → bracket.step t = .ok (.closed c))
    (hend : EndsClass further) : bracket.read openedAt further = endClass openedAt c further := by
  cases further with
  | nil => rfl
  | cons item rest =>
      obtain ⟨t, rfl, ht⟩ := hend item rfl
      exact read_closed (hclose t ht)

/-- A reader whose memory does not speak of the token that comes next: it
remembers nothing, or the token is no dash. -/
inductive Idle : Memory → List Token → Prop where
  | nothing {ts : List Token} : Idle .nothing ts
  | single {low : Symbol} {ts : List Token} :
      (∀ t ∈ ts.head?, t.kind ≠ .dash) → Idle (.single low) ts

/-- An idle reader takes any token of the body as a symbol. -/
theorem Idle.step {ts : List Token} (h : Idle memory (t :: ts)) (hk : t.kind ≠ .rightBracket) :
    (Bracket.body complement set memory).step t =
      .ok (.more (.body complement (set.insert t.symbol) (.single t.symbol))) := by
  show stepBody complement set memory t = _
  cases h with
  | nothing =>
      unfold stepBody
      split <;> simp_all [Bracket.single]
  | single hd =>
      have hd := hd t rfl
      unfold stepBody
      split <;> simp_all [Bracket.single]

/-- Behind a symbol a dash waits for the end of a range. -/
theorem step_dash {low : Symbol} (hd : t.kind = .dash) :
    (Bracket.body complement set (.single low)).step t =
      .ok (.more (.body complement set (.pending low t.position))) := by
  show stepBody complement set (.single low) t = _
  simp only [stepBody, hd]

/-- Any token of the body ends a range. -/
theorem step_pending {low : Symbol} {position : Nat} (hk : t.kind ≠ .rightBracket) :
    (Bracket.body complement set (.pending low position)).step t =
      if t.symbol < low then .error (.invalidRange low t.symbol position)
      else .ok (.more (.body complement (set.insertRange low t.symbol) .nothing)) := by
  show stepBody complement set (.pending low position) t = _
  unfold stepBody
  split <;> simp_all

/-- The closing bracket ends the class of an idle reader. -/
theorem Idle.close (h : Idle memory []) (ht : t.kind = .rightBracket) :
    (Bracket.body complement set memory).step t = .ok (.closed ⟨set, complement⟩) := by
  show stepBody complement set memory t = _
  cases h <;> simp only [stepBody, ht]

/-- A dash that no range came of is a symbol. -/
theorem close_pending {low : Symbol} {position : Nat} (ht : t.kind = .rightBracket) :
    (Bracket.body complement set (.pending low position)).step t =
      .ok (.closed ⟨set.insert Symbol.dash, complement⟩) := by
  show stepBody complement set (.pending low position) t = _
  simp only [stepBody, ht]

/-! ## §3. Reading a body. -/

/-- A range takes in its low end. -/
theorem insertRange_insert {low high : Symbol} (h : low ≤ high) :
    (set.insert low).insertRange low high = set.insertRange low high := by
  apply BitSet.ext
  intro i
  rw [BitSet.contains_insertRange, BitSet.contains_insertRange, BitSet.contains_insert,
    Bool.or_assoc, ← Bool.decide_or]
  congr 1
  have hle : low.val ≤ high.val := h
  rw [decide_eq_decide]
  omega

/-- **What an idle reader makes of the rest of a body.** -/
theorem Idle.read (h : Idle memory body) (hinside : ∀ t ∈ body, t.kind ≠ .rightBracket)
    (hproper : ∀ t ∈ body, t.Proper) (hend : EndsClass further) :
    (Bracket.body complement set memory).read openedAt (body.map Item.token ++ further) =
      match classComplaint? body with
      | some e => .error e
      | none => endClass openedAt
          ⟨(classEntries body).foldl ClassEntry.addTo set, complement⟩ further := by
  -- the induction is on the way the body falls into entries
  induction body using classEntries.induct generalizing set memory with
  | case1 => exact read_end (fun t ht => h.close ht) hend
  | case2 a =>
      have ha := hinside a (by simp)
      refine (read_more (h.step ha)).trans ?_
      exact read_end (fun t ht => Idle.close (.single (fun u hu => by cases hu)) ht) hend
  | case3 a d =>
      have ha := hinside a (by simp)
      have hd := hinside d (by simp)
      refine (read_more (h.step ha)).trans ?_
      by_cases hdash : d.kind = .dash
      · -- the dash comes last
        refine (read_more (step_dash hdash)).trans ?_
        have hsymbol := (hproper d (by simp)).symbol_eq_dash hdash
        show _ = endClass openedAt ⟨(set.insert a.symbol).insert d.symbol, complement⟩ further
        rw [hsymbol]
        exact read_end (fun t ht => close_pending ht) hend
      · have hidle : Idle (.single a.symbol) [d] := by
          refine .single ?_
          intro u hu
          cases hu
          exact hdash
        refine (read_more (hidle.step hd)).trans ?_
        exact read_end (fun t ht => Idle.close (.single (fun u hu => by cases hu)) ht) hend
  | case4 a d b rest hdash ih =>
      have ha := hinside a (by simp)
      have hb := hinside b (by simp)
      refine (read_more (h.step ha)).trans ((read_more (step_dash hdash)).trans ?_)
      have hentries : classEntries (a :: d :: b :: rest) = .range a d b :: classEntries rest := by
        rw [classEntries, if_pos hdash]
      have hcomplaint : classComplaint? (a :: d :: b :: rest) =
          if b.symbol < a.symbol then some (.invalidRange a.symbol b.symbol d.position)
          else classComplaint? rest := by
        rw [classComplaint?, hentries, List.findSome?_cons, ClassEntry.complaint?]
        by_cases hlt : b.symbol < a.symbol
        · rw [if_pos hlt, if_pos hlt]
        · rw [if_neg hlt, if_neg hlt]
          rfl
      rw [hcomplaint, hentries, List.foldl_cons]
      by_cases hlt : b.symbol < a.symbol
      · rw [if_pos hlt]
        apply read_refused
        rw [step_pending hb, if_pos hlt]
      · have hstep : (Bracket.body complement (set.insert a.symbol)
            (.pending a.symbol d.position)).step b =
              .ok (.more (.body complement (set.insertRange a.symbol b.symbol) .nothing)) := by
          rw [step_pending hb, if_neg hlt, insertRange_insert (not_lt.1 hlt)]
        rw [if_neg hlt]
        refine (read_more hstep).trans ?_
        exact ih .nothing (fun u hu => hinside u (by simp [hu]))
          (fun u hu => hproper u (by simp [hu]))
  | case5 a d b rest hdash ih =>
      have ha := hinside a (by simp)
      have hidle : Idle (.single a.symbol) (d :: b :: rest) := by
        refine .single ?_
        intro u hu
        cases hu
        exact hdash
      have hentries : classEntries (a :: d :: b :: rest) =
          .single a :: classEntries (d :: b :: rest) := by
        rw [classEntries, if_neg hdash]
      have hcomplaint : classComplaint? (a :: d :: b :: rest) =
          classComplaint? (d :: b :: rest) := by
        rw [classComplaint?, hentries]
        rfl
      rw [hcomplaint, hentries, List.foldl_cons]
      refine (read_more (h.step ha)).trans ?_
      exact ih hidle (fun u hu => hinside u (List.mem_cons_of_mem _ hu))
        (fun u hu => hproper u (List.mem_cons_of_mem _ hu))

/-- The first token of a body begins it. -/
theorem read_first {bracket : Bracket} (hk : t.kind ≠ .rightBracket)
    (hbracket : bracket = .negated ∧ complement = true ∨
      bracket = .opened ∧ complement = false ∧ t.kind ≠ .caret) :
    bracket.read openedAt (.token t :: rest) =
      (Bracket.body complement (BitSet.empty _) .nothing).read openedAt (.token t :: rest) := by
  have hstep : bracket.step t =
      (Bracket.body complement (BitSet.empty _) .nothing).step t := by
    rcases hbracket with ⟨rfl, rfl⟩ | ⟨rfl, rfl, hc⟩
    · exact stepFirst_eq hk
    · rw [Bracket.step, if_neg hc]
      exact stepFirst_eq hk
  rw [Bracket.read, Bracket.read, hstep]

/-- An empty body means the symbols up to the blank. -/
theorem close_first {bracket : Bracket} (ht : t.kind = .rightBracket)
    (hbracket : bracket = .negated ∧ complement = true ∨ bracket = .opened ∧ complement = false) :
    bracket.step t = .ok (.closed ⟨CharClass.blanks, complement⟩) := by
  have hc : t.kind ≠ .caret := by rw [ht]; decide
  rcases hbracket with ⟨rfl, rfl⟩ | ⟨rfl, rfl⟩
  · rw [Bracket.step, stepFirst, ht]
  · rw [Bracket.step, if_neg hc, stepFirst, ht]

/-- A body behind the opening bracket, or behind the mark of a complement. -/
theorem read_unmarked {bracket : Bracket}
    (hbracket : bracket = .negated ∧ complement = true ∨ bracket = .opened ∧ complement = false)
    (hhead : complement = false → ∀ t ∈ body.head?, t.kind ≠ .caret)
    (hinside : ∀ t ∈ body, t.kind ≠ .rightBracket) (hproper : ∀ t ∈ body, t.Proper)
    (hend : EndsClass further) :
    bracket.read openedAt (body.map Item.token ++ further) =
      match classComplaint? body with
      | some e => .error e
      | none => endClass openedAt ⟨classSet body, complement⟩ further := by
  cases body with
  | nil => exact read_end (fun t ht => close_first ht hbracket) hend
  | cons t ts =>
      have hfirst : bracket = .negated ∧ complement = true ∨
          bracket = .opened ∧ complement = false ∧ t.kind ≠ .caret := by
        rcases hbracket with hb | ⟨hb, hc⟩
        · exact .inl hb
        · exact .inr ⟨hb, hc, hhead hc t rfl⟩
      exact (read_first (hinside t List.mem_cons_self) hfirst).trans
        (Idle.nothing.read hinside hproper hend)

/-- **A class is read as its entries say**: the leftmost inverted range is
refused, and if there is none, the set holds what the entries mean.  The mark
of a complement has no other effect. -/
theorem read_class (hmark : Mark .caret complement mark)
    (hhead : complement = false → ∀ t ∈ body.head?, t.kind ≠ .caret)
    (hinside : ∀ t ∈ body, t.kind ≠ .rightBracket) (hproper : ∀ t ∈ body, t.Proper)
    (hend : EndsClass further) :
    Bracket.opened.read openedAt ((mark ++ body).map Item.token ++ further) =
      match classComplaint? body with
      | some e => .error e
      | none => endClass openedAt ⟨classSet body, complement⟩ further := by
  cases hmark with
  | absent => exact read_unmarked (.inr ⟨rfl, rfl⟩) hhead hinside hproper hend
  | @present caret hcaret =>
      have hstep : Bracket.opened.step caret = .ok (.more .negated) := by
        rw [Bracket.step, if_pos hcaret]
      exact (read_more hstep).trans
        (read_unmarked (.inl ⟨rfl, rfl⟩) hhead hinside hproper hend)

end Bracket

/-! ## §4. The class as a part of the text. -/

namespace Reader

variable {r r' : Reader} {ts : List Token}

/-- Reads the rest of a text that ends at the offset `stop`. -/
def complete (r : Reader) (stop : Nat) (items : List Item) : Except Refusal (List Rule) :=
  (r.feedAll items).bind fun r' => r'.finish stop

theorem readRules_eq_complete (pattern : String) :
    readRules pattern = start.complete (endOf pattern) (itemsOf pattern) := rfl

theorem Reads.complete_append (h : r.Reads ts r') (stop : Nat) (items : List Item) :
    r.complete stop (ts.map Item.token ++ items) = r'.complete stop items := by
  unfold Reads at h
  rw [feedAll] at h
  rw [complete, feedAll, List.foldlM_append, h]
  rfl

theorem complete_cons {t : Token} (h : r.step t = .ok r') (stop : Nat) (items : List Item) :
    r.complete stop (.token t :: items) = r'.complete stop items :=
  (Reads.single h).complete_append stop items

theorem complete_refused {t : Token} {refusal : Refusal} (h : r.step t = .error refusal)
    (stop : Nat) (items : List Item) :
    r.complete stop (.token t :: items) = .error refusal := by
  rw [complete, feedAll, List.foldlM_cons]
  show (r.step t >>= _).bind _ = _
  rw [h]
  rfl

/-- Goes on behind a class that has been read, which is a term now. -/
def afterClass (rules : List Rule) (outer : Outer) (before : Branch) (stop : Nat) :
    Except SyntaxError (CharClass × List Item) → Except Refusal (List Rule)
  | .error e => .error ⟨e, rules⟩
  | .ok (c, rest) => complete ⟨rules, .afterTerm outer before (.cls c)⟩ stop rest

/-- **From the opening bracket on the reader reads a class**, and goes on
behind it. -/
theorem complete_inBracket {rules : List Rule} {outer : Outer} {before : Branch}
    {openedAt : Nat} (bracket : Bracket) (stop : Nat) (items : List Item) :
    complete ⟨rules, .inBracket outer before openedAt bracket⟩ stop items =
      afterClass rules outer before stop (bracket.read openedAt items) := by
  induction items generalizing bracket with
  | nil => rfl
  | cons item items ih =>
      cases item with
      | foreign b p => rfl
      | token t =>
          cases hstep : bracket.step t with
          | error e =>
              rw [Bracket.read_refused hstep]
              apply complete_refused
              simp only [Reader.step, Phase.bracketStep, hstep, Reader.enter, Reader.refuse]
          | ok outcome =>
              cases outcome with
              | more bracket' =>
                  rw [Bracket.read_more hstep, ← ih bracket']
                  apply complete_cons
                  simp only [Reader.step, Phase.bracketStep, hstep, Reader.enter]
              | closed c =>
                  rw [Bracket.read_closed hstep]
                  apply complete_cons
                  simp only [Reader.step, Phase.bracketStep, hstep, Reader.enter]

end Reader

end LineScan
