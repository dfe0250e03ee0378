/-
  LineScan.Proofs.Pattern.Literals
  ────────────────────────────────
  **EVERY SPELLING OF A LITERAL TEXT IS READ BACK.**

  A literal text can be cut into pieces, each of which is written in one of
  four forms:

      plain      a          a symbol that no operator is written with
      escaped    \a         any symbol but t, n and r
      control    \t \n \r   a tab, a line feed, a carriage return
      quoted     "…"        any symbols, `\"` for a double quote

  A `Piece` carries the condition under which its form may be used, so any list
  of pieces is a spelling.  One lemma for each form says what the lexer
  delivers there, whatever stands behind; the pieces of a text then follow one
  another (`delivers_pieces`).  A backslash must not be the last symbol
  between quotes: there, and only there, it would take the closing quote with
  it.

  Main result: `reads_back_pieces`.
-/
import LineScan.Proofs.Nfa.OfPattern

namespace LineScan

/-! ## §1. Pieces. -/

/-- The backslash. -/
def Symbol.backslash : Symbol := ⟨92, by decide⟩

/-- The double quote. -/
def Symbol.doubleQuote : Symbol := ⟨34, by decide⟩

/-- A symbol that means something else when it is written plainly. -/
def Reserved (a : Symbol) : Prop :=
  a.toChar ∈ ['$', '(', ')', '*', '+', '-', '.', '?', '[', ']', '^', '|'] ∨
    a = Symbol.doubleQuote ∨ a = Symbol.backslash

instance (a : Symbol) : Decidable (Reserved a) := inferInstanceAs (Decidable (_ ∨ _))

/-- A letter that stands for a control character behind a backslash. -/
def ControlLetter (a : Symbol) : Prop := a.toChar ∈ ['t', 'n', 'r']

instance (a : Symbol) : Decidable (ControlLetter a) := inferInstanceAs (Decidable (_ ∈ _))

/-- A control character that has a letter of its own. -/
inductive Control where
  /-- The tab, which is written with a t. -/
  | tab
  /-- The line feed, which is written with an n. -/
  | lineFeed
  /-- The carriage return, which is written with an r. -/
  | carriageReturn
deriving DecidableEq, Repr

namespace Control

/-- The control character itself. -/
def symbol : Control → Symbol
  | .tab => ⟨9, by decide⟩
  | .lineFeed => Symbol.lineFeed
  | .carriageReturn => Symbol.carriageReturn

/-- The letter that stands for it behind a backslash. -/
def letter : Control → Symbol
  | .tab => ⟨116, by decide⟩
  | .lineFeed => ⟨110, by decide⟩
  | .carriageReturn => ⟨114, by decide⟩

end Control

/-- **A piece of a literal text**, in the form that it is written in. -/
inductive Piece where
  /-- A symbol that is written as itself. -/
  | plain (a : Symbol) (h : ¬ Reserved a)
  /-- A symbol behind a backslash. -/
  | escaped (a : Symbol) (h : ¬ ControlLetter a)
  /-- A letter behind a backslash. -/
  | control (c : Control)
  /-- Symbols between double quotes; the last of them is no backslash. -/
  | quoted (span : List Symbol) (h : ¬ [Symbol.backslash] <:+ span)
deriving DecidableEq

/-- How a symbol is written between double quotes. -/
def spellQuoted (a : Symbol) : List Symbol :=
  if a = Symbol.doubleQuote then [Symbol.backslash, Symbol.doubleQuote] else [a]

namespace Piece

/-- What a piece stands for. -/
def meaning : Piece → List Symbol
  | plain a _ => [a]
  | escaped a _ => [a]
  | control c => [c.symbol]
  | quoted span _ => span

/-- How a piece is written. -/
def spelling : Piece → List Symbol
  | plain a _ => [a]
  | escaped a _ => [Symbol.backslash, a]
  | control c => [Symbol.backslash, c.letter]
  | quoted span _ =>
      Symbol.doubleQuote :: (span.flatMap spellQuoted ++ [Symbol.doubleQuote])

/-- The literal text that pieces make up. -/
def meanings (pieces : List Piece) : List Symbol := pieces.flatMap meaning

/-- **The pattern that pieces are written as.** -/
def text (pieces : List Piece) : String :=
  String.ofList ((pieces.flatMap spelling).map Symbol.toChar)

/-- Every literal text can be spelled. -/
theorem exists_meanings_eq (s : List Symbol) : ∃ pieces, meanings pieces = s := by
  induction s with
  | nil => exact ⟨[], rfl⟩
  | cons a s ih =>
      obtain ⟨pieces, hpieces⟩ := ih
      by_cases ha : ControlLetter a
      · -- the letters that cannot be escaped can be written plainly
        have hplain : ∀ b : Symbol, ControlLetter b → ¬ Reserved b := by decide +kernel
        refine ⟨plain a (hplain a ha) :: pieces, ?_⟩
        rw [← hpieces]
        rfl
      · refine ⟨escaped a ha :: pieces, ?_⟩
        rw [← hpieces]
        rfl

end Piece

/-- A symbol is its own encoding. -/
theorem Symbol.utf8EncodeChar_toChar :
    ∀ a : Symbol, String.utf8EncodeChar a.toChar = [a.toByte] := by
  decide +kernel

theorem utf8_ofList_toChar (s : List Symbol) :
    utf8 (String.ofList (s.map Symbol.toChar)) = s.map Symbol.toByte := by
  induction s with
  | nil => rfl
  | cons a s ih =>
      rw [utf8, String.toList_ofList] at ih ⊢
      rw [List.map_cons, List.flatMap_cons, ih, Symbol.utf8EncodeChar_toChar]
      rfl

theorem Kind.ofPlain_eq_literal :
    ∀ a : Symbol, ¬ Reserved a → Kind.ofPlain a.toByte = .literal := by
  decide +kernel

theorem Cursor.unescape_toByte :
    ∀ a : Symbol, ¬ ControlLetter a → unescape a.toByte = a.toByte := by
  decide +kernel

theorem Symbol.toByte_eq_iff {a b : Symbol} : a.toByte = b.toByte ↔ a = b :=
  Symbol.toByte_injective.eq_iff

namespace Cursor

/-! ## §2. Deliveries. -/

/-- **From the cursor on the lexer delivers literals**, and comes to the bytes
`rest`, inside a quoted span or not. -/
def Delivers (c : Cursor) (s : List Symbol) (rest : List UInt8) (quoted : Bool) : Prop :=
  ∃ (offset : Nat) (ts : List Token), (∀ t ∈ ts, t.kind = .literal) ∧
    ts.map Token.symbol = s ∧
    c.items = ts.map Item.token ++ (Cursor.mk rest offset quoted).items

variable {c : Cursor} {s u : List Symbol} {a : Symbol} {rest further : List UInt8}
  {offset : Nat} {quoted q : Bool}

theorem Delivers.refl (rest : List UInt8) (offset : Nat) (quoted : Bool) :
    (Cursor.mk rest offset quoted).Delivers [] rest quoted :=
  ⟨offset, [], (fun t ht => by cases ht), rfl, rfl⟩

theorem Delivers.trans (h : c.Delivers s rest quoted)
    (h' : ∀ offset, (Cursor.mk rest offset quoted).Delivers u further q) :
    c.Delivers (s ++ u) further q := by
  obtain ⟨o, ts, hliteral, hs, hitems⟩ := h
  obtain ⟨o', ts', hliteral', hu, hitems'⟩ := h' o
  refine ⟨o', ts ++ ts', ?_, ?_, ?_⟩
  · intro t ht
    rcases List.mem_append.1 ht with ht | ht
    · exact hliteral t ht
    · exact hliteral' t ht
  · rw [List.map_append, hs, hu]
  · rw [hitems, hitems', List.map_append, List.append_assoc]

/-- A double quote that opens or closes a span delivers nothing. -/
theorem delivers_quote (rest : List UInt8) (offset : Nat) (quoted : Bool) :
    (Cursor.mk (0x22 :: rest) offset quoted).Delivers [] rest !quoted := by
  refine ⟨offset + 1, [], (fun t ht => by cases ht), rfl, ?_⟩
  have hnext : (Cursor.mk (0x22 :: rest) offset quoted).next =
      (Cursor.mk rest (offset + 1) !quoted).next := rfl
  rw [List.map_nil, List.nil_append, items, items, hnext]

/-- What is decoded at the cursor is delivered, unless it is an operator. -/
theorem delivers_of_spelled {plain : Bool} (hquote : c.rest.head? ≠ some 0x22)
    (hspelled : c.spelled? = some (⟨a.toByte, plain⟩, ⟨rest, offset, quoted⟩))
    (hplain : plain = true → ¬ Reserved a) : c.Delivers [a] rest quoted := by
  have hstay : c.skipQuotes = c := by
    obtain ⟨bytes, o, q⟩ := c
    cases bytes with
    | nil => rfl
    | cons b bytes =>
        have hb : b ≠ 0x22 := fun hb => hquote (congrArg some hb)
        show skipQuotes.go (b :: bytes) o q = _
        rw [skipQuotes.go, if_neg hb]
  have hitem : itemOf ⟨a.toByte, plain⟩ c.offset = .token ⟨.literal, a, c.offset⟩ := by
    rw [itemOf, Symbol.ofByte?_toByte]
    cases plain with
    | true => simp only [Kind.ofPlain_eq_literal a (hplain rfl), if_true]
    | false => rfl
  have hnext : c.next = some (.token ⟨.literal, a, c.offset⟩, ⟨rest, offset, quoted⟩) := by
    rw [next, hstay, hspelled, ← hitem]
    rfl
  refine ⟨offset, [⟨.literal, a, c.offset⟩], ?_, rfl, ?_⟩
  · intro t ht
    rw [List.mem_singleton.1 ht]
  · rw [items, hnext]
    rfl

/-! ## §3. One form of writing after the other. -/

theorem delivers_plain (h : ¬ Reserved a) (rest : List UInt8) (offset : Nat) :
    (Cursor.mk (a.toByte :: rest) offset false).Delivers [a] rest false := by
  have hquote : a.toByte ≠ Symbol.doubleQuote.toByte := by
    intro ha
    rw [Symbol.toByte_eq_iff.1 ha] at h
    exact h (by decide)
  have hback : a.toByte ≠ Symbol.backslash.toByte := by
    intro ha
    rw [Symbol.toByte_eq_iff.1 ha] at h
    exact h (by decide)
  have hspelled : (Cursor.mk (a.toByte :: rest) offset false).spelled? =
      some (⟨a.toByte, true⟩, ⟨rest, offset + 1, false⟩) := by
    have hnot : a.toByte ≠ 0x5c := hback
    cases rest with
    | nil => rfl
    | cons b rest => simp [spelled?, hnot]
  refine delivers_of_spelled ?_ hspelled (fun _ => h)
  intro ha
  exact hquote (Option.some.inj ha)

/-- Outside quotes a backslash takes the next byte with it. -/
theorem delivers_escape {b : UInt8} (h : unescape b = a.toByte) (rest : List UInt8)
    (offset : Nat) : (Cursor.mk (0x5c :: b :: rest) offset false).Delivers [a] rest false := by
  have hspelled : (Cursor.mk (0x5c :: b :: rest) offset false).spelled? =
      some (⟨a.toByte, false⟩, ⟨rest, offset + 2, false⟩) := by
    rw [← h]
    rfl
  refine delivers_of_spelled ?_ hspelled ?_
  · simp
  · intro hplain
    cases hplain

/-- Between quotes a symbol stands for itself, also a backslash, unless it
stands before a double quote. -/
theorem delivers_inside (hquote : a ≠ Symbol.doubleQuote)
    (hback : a = Symbol.backslash → rest.head? ≠ some 0x22) (offset : Nat) :
    (Cursor.mk (a.toByte :: rest) offset true).Delivers [a] rest true := by
  have hspelled : (Cursor.mk (a.toByte :: rest) offset true).spelled? =
      some (⟨a.toByte, false⟩, ⟨rest, offset + 1, true⟩) := by
    cases rest with
    | nil => rfl
    | cons b rest =>
        have hnot : ¬ (a.toByte = 0x5c ∧ b = 0x22) := by
          rintro ⟨ha, hb⟩
          refine hback (Symbol.toByte_eq_iff.1 ha) ?_
          rw [hb]
          rfl
        simp only [spelled?, Bool.true_eq_false, and_false, if_false, hnot, Bool.not_true]
  refine delivers_of_spelled ?_ hspelled ?_
  · intro ha
    exact hquote (Symbol.toByte_eq_iff.1 (Option.some.inj ha))
  · intro hplain
    cases hplain

/-- Between quotes a double quote is written behind a backslash. -/
theorem delivers_inside_quote (rest : List UInt8) (offset : Nat) :
    (Cursor.mk (0x5c :: 0x22 :: rest) offset true).Delivers [Symbol.doubleQuote] rest true := by
  have hspelled : (Cursor.mk (0x5c :: 0x22 :: rest) offset true).spelled? =
      some (⟨Symbol.doubleQuote.toByte, false⟩, ⟨rest, offset + 2, true⟩) := rfl
  refine delivers_of_spelled ?_ hspelled ?_
  · simp
  · intro hplain
    cases hplain

/-- What is written between quotes does not begin with a double quote. -/
theorem head?_spellQuoted (b : Symbol) (s : List Symbol) (rest : List UInt8) :
    (((b :: s).flatMap spellQuoted).map Symbol.toByte ++ rest).head? ≠ some 0x22 := by
  rw [List.flatMap_cons, spellQuoted]
  split
  · have hback : Symbol.backslash.toByte ≠ 0x22 := by decide
    simpa using hback
  · next hb =>
      intro h
      exact hb (Symbol.toByte_eq_iff.1 (Option.some.inj h))

/-- **The inside of a quoted span** is delivered up to the closing quote. -/
theorem delivers_span {span : List Symbol} (h : ¬ [Symbol.backslash] <:+ span)
    (rest : List UInt8) (offset : Nat) :
    (Cursor.mk ((span.flatMap spellQuoted).map Symbol.toByte ++ 0x22 :: rest) offset true).Delivers
      span (0x22 :: rest) true := by
  induction span generalizing offset with
  | nil => exact .refl _ _ _
  | cons a span ih =>
      have htail : ¬ [Symbol.backslash] <:+ span := fun hs => h (hs.trans (List.suffix_cons a span))
      have hfirst : (Cursor.mk (((a :: span).flatMap spellQuoted).map Symbol.toByte ++
          0x22 :: rest) offset true).Delivers [a]
          ((span.flatMap spellQuoted).map Symbol.toByte ++ 0x22 :: rest) true := by
        rw [List.flatMap_cons, spellQuoted]
        split
        · next ha =>
            rw [ha]
            exact delivers_inside_quote _ offset
        · next ha =>
            refine delivers_inside ha ?_ offset
            intro hback
            -- a backslash is not the last symbol, and no double quote comes next as such
            cases span with
            | nil => exact absurd (hback ▸ List.suffix_refl _) h
            | cons b span => exact head?_spellQuoted b span _
      exact hfirst.trans (ih htail)

/-- **Every piece is delivered**, whatever stands behind it. -/
theorem delivers_piece (piece : Piece) (rest : List UInt8) (offset : Nat) :
    (Cursor.mk (piece.spelling.map Symbol.toByte ++ rest) offset false).Delivers
      piece.meaning rest false := by
  cases piece with
  | plain a h => exact delivers_plain h rest offset
  | escaped a h => exact delivers_escape (unescape_toByte a h) rest offset
  | control c =>
      have hletter : unescape c.letter.toByte = c.symbol.toByte := by
        cases c <;> rfl
      exact delivers_escape hletter rest offset
  | quoted span h =>
      have hbytes : (Piece.quoted span h).spelling.map Symbol.toByte ++ rest =
          0x22 :: ((span.flatMap spellQuoted).map Symbol.toByte ++ 0x22 :: rest) := by
        have hquote : Symbol.doubleQuote.toByte = 0x22 := rfl
        simp [Piece.spelling, hquote]
      rw [hbytes]
      have hopen := delivers_quote
        ((span.flatMap spellQuoted).map Symbol.toByte ++ 0x22 :: rest) offset false
      have hspan := hopen.trans fun offset => delivers_span h rest offset
      have hclose := hspan.trans fun offset => delivers_quote rest offset true
      rwa [List.append_nil] at hclose

/-- **Pieces are delivered one after the other.** -/
theorem delivers_pieces (pieces : List Piece) (offset : Nat) :
    (Cursor.mk ((pieces.flatMap Piece.spelling).map Symbol.toByte) offset false).Delivers
      (Piece.meanings pieces) [] false := by
  induction pieces generalizing offset with
  | nil => exact .refl _ _ _
  | cons piece pieces ih =>
      have hfirst := delivers_piece piece
        ((pieces.flatMap Piece.spelling).map Symbol.toByte) offset
      rw [List.flatMap_cons, List.map_append]
      exact hfirst.trans ih

end Cursor

/-- **The tokens of a spelled text** are its symbols, as literals. -/
theorem exists_tokens_of_pieces (pieces : List Piece) :
    ∃ ts : List Token, itemsOf (Piece.text pieces) = ts.map Item.token ∧
      (∀ t ∈ ts, t.kind = .literal) ∧ ts.map Token.symbol = Piece.meanings pieces := by
  obtain ⟨offset, ts, hliteral, hs, hitems⟩ := Cursor.delivers_pieces pieces 0
  have hend : (Cursor.mk [] offset false).items = [] := by
    have hnone : (Cursor.mk [] offset false).next = none := rfl
    rw [Cursor.items, hnone]
  refine ⟨ts, ?_, hliteral, hs⟩
  rw [itemsOf, Cursor.start, Piece.text, utf8_ofList_toChar, hitems, hend, List.append_nil]

/-! ## §4. Literals match themselves. -/

/-- The word of some symbols, and no other one. -/
def oneWord (s : List Symbol) : Language UInt8 := {w | w = s.map Symbol.toByte}

theorem oneWord_singleton (a : Symbol) : oneWord [a] = oneSymbol {a} := by
  ext w
  show w = [a.toByte] ↔ ∃ b ∈ ({a} : Set Symbol), w = [b.toByte]
  simp

theorem oneWord_append (s u : List Symbol) : oneWord (s ++ u) = oneWord s * oneWord u := by
  ext w
  rw [Language.mem_mul]
  show w = (s ++ u).map Symbol.toByte ↔
    ∃ v, v = s.map Symbol.toByte ∧ ∃ x, x = u.map Symbol.toByte ∧ v ++ x = w
  rw [List.map_append]
  simp [eq_comm]

/-- **Literals derive one word**, that of their symbols. -/
theorem derives_literals {ts : List Token} (hliteral : ∀ t ∈ ts, t.kind = .literal)
    (hne : ts ≠ []) : Derives .cat ts (oneWord (ts.map Token.symbol)) := by
  -- factors are joined from the left, so the induction takes tokens off at the end
  induction ts using List.reverseRecOn with
  | nil => exact absurd rfl hne
  | append_singleton ts t ih =>
      have hlast : Derives .factor [t] (oneWord [t.symbol]) := by
        rw [oneWord_singleton]
        exact .bare (.symbol (.inl (hliteral t (by simp))))
      by_cases hts : ts = []
      · subst hts
        exact .first hlast
      · have hfront := ih (fun u hu => hliteral u (by simp [hu])) hts
        rw [List.map_append, oneWord_append]
        exact .append hfront hlast

/-- **A text of literals is a pattern**, and matches the word of their symbols
and no other one. -/
theorem Nfa.exists_ofPattern_literals {pattern : String} {ts : List Token}
    (hts : itemsOf pattern = ts.map Item.token) (hliteral : ∀ t ∈ ts, t.kind = .literal)
    (hne : ts ≠ []) :
    ∃ nfa, Nfa.ofPattern? pattern = .ok nfa ∧
      ∀ w : Word, nfa.accepts w = true ↔ w = (ts.map Token.symbol).map Symbol.toByte := by
  have hrule : RuleText false false ([] ++ ts ++ []) (1 * oneWord _ * 1) :=
    .mk .absent (.alone (derives_literals hliteral hne)) .absent
  rw [List.nil_append, List.append_nil, one_mul, mul_one] at hrule
  obtain ⟨rules, hrules, hlanguage⟩ := readRules_complete hts (.last hrule)
  obtain ⟨nfa, hnfa, haccepts⟩ := Nfa.exists_ofPattern hrules
  refine ⟨nfa, hnfa, ?_⟩
  intro w
  rw [haccepts, hlanguage]
  rfl

/-- **A literal text can be spelled, and is read back from every spelling**: its
symbols are delivered as literals and nothing else is, and if there are any,
the automaton matches them and nothing else. -/
theorem reads_back_pieces (s : List Symbol) :
    (∃ pieces, Piece.meanings pieces = s) ∧
    ∀ pieces, Piece.meanings pieces = s →
      (∃ ts : List Token, itemsOf (Piece.text pieces) = ts.map Item.token ∧
        (∀ t ∈ ts, t.kind = .literal) ∧ ts.map Token.symbol = s) ∧
      (s ≠ [] →
        ∃ nfa, Nfa.ofPattern? (Piece.text pieces) = .ok nfa ∧
          ∀ w : Word, nfa.accepts w = true ↔ w = s.map Symbol.toByte) := by
  refine ⟨Piece.exists_meanings_eq s, ?_⟩
  rintro pieces rfl
  obtain ⟨ts, hts, hliteral, hs⟩ := exists_tokens_of_pieces pieces
  refine ⟨⟨ts, hts, hliteral, hs⟩, ?_⟩
  intro hne
  rw [← hs] at hne ⊢
  apply Nfa.exists_ofPattern_literals hts hliteral
  intro hnil
  rw [hnil] at hne
  exact hne rfl

/-- The text `a"x\"\y"\t""\*\\` and what it matches. -/
theorem reads_back_pieces_mixed :
    ∃ nfa, Nfa.ofPattern? "a\"x\\\"\\y\"\\t\"\"\\*\\\\" = .ok nfa ∧
      ∀ w : Word, nfa.accepts w = true ↔
        w = [97, 120, Symbol.doubleQuote, Symbol.backslash, 121, 9, 42,
          Symbol.backslash].map Symbol.toByte := by
  have h := ((reads_back_pieces [97, 120, Symbol.doubleQuote, Symbol.backslash, 121, 9, 42,
    Symbol.backslash]).2 [.plain 97 (by decide),
      .quoted [120, Symbol.doubleQuote, Symbol.backslash, 121] (by decide), .control .tab,
      .quoted [] (by decide), .escaped 42 (by decide), .escaped Symbol.backslash (by decide)]
    rfl).2 (by decide)
  exact h

end LineScan
