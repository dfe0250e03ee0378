/-
  LineScan.Proofs.Pattern.Spelling
  ────────────────────────────────
  **WHERE THE ITEMS OF A TEXT ARE SPELLED.**

  From one item to the next the lexer passes over double quotes and then over
  one spelling, and over nothing else:

      bytes ahead  =  quotes  ++  spelling  ++  bytes ahead of the next place
                              ↑ the position of the item

  `Item.SpelledBy` lists the spellings that an item can have.  A token is
  spelled by bytes below 128, so up to the first foreign byte every byte of a
  text is below 128, and the position of every item up to there lies behind
  such bytes only (`exists_spelling`).
-/
import LineScan.Proofs.Pattern.Lexer
import Mathlib.Data.List.Basic

namespace LineScan

/-! ## §1. Spellings. -/

/-- The bytes that stand for a byte of the alphabet, or for none. -/
inductive Item.SpelledBy : Item → List UInt8 → Prop where
  /-- A token may be written as its byte. -/
  | plain {t : Token} : SpelledBy (.token t) [t.symbol.toByte]
  /-- A literal may be written behind a backslash. -/
  | escaped {t : Token} {b : UInt8} : t.kind = .literal → t.symbol.toByte = Cursor.unescape b →
      SpelledBy (.token t) [0x5c, b]
  /-- A foreign byte is written as it is. -/
  | foreign {b : UInt8} {p : Nat} : alphabetSize ≤ b.toNat → SpelledBy (.foreign b p) [b]
  /-- A foreign byte may stand behind a backslash. -/
  | foreignEscaped {b : UInt8} {p : Nat} : alphabetSize ≤ b.toNat →
      SpelledBy (.foreign b p) [0x5c, b]

/-- All bytes are below 128. -/
def Ascii (bytes : List UInt8) : Prop := ∀ b ∈ bytes, b.toNat < 128

theorem ascii_append {l m : List UInt8} (hl : Ascii l) (hm : Ascii m) : Ascii (l ++ m) := by
  intro b hb
  rcases List.mem_append.1 hb with hb | hb
  · exact hl b hb
  · exact hm b hb

theorem Cursor.toNat_lt_of_unescape {b : UInt8} {a : Symbol} (h : a.toByte = unescape b) :
    b.toNat < 128 := by
  unfold unescape at h
  split at h
  · next hb => rw [hb]; decide
  · split at h
    · next hb => rw [hb]; decide
    · split at h
      · next hb => rw [hb]; decide
      · have ha : a.val < 127 := a.isLt
        rw [← h, Symbol.toNat_toByte]
        omega

theorem Cursor.unescape_eq_self {b : UInt8} (h : alphabetSize ≤ (unescape b).toNat) :
    unescape b = b := by
  -- the control characters that a letter stands for are in the alphabet
  unfold unescape at h ⊢
  split at h
  · exact absurd h (by decide)
  · split at h
    · exact absurd h (by decide)
    · split at h
      · exact absurd h (by decide)
      · next h₁ h₂ h₃ => rw [if_neg h₁, if_neg h₂, if_neg h₃]

/-- **A token is spelled by bytes below 128.** -/
theorem Item.SpelledBy.ascii {t : Token} {spelling : List UInt8}
    (h : SpelledBy (.token t) spelling) : Ascii spelling := by
  cases h with
  | plain =>
      intro b hb
      have ha : t.symbol.val < 127 := t.symbol.isLt
      rw [List.mem_singleton.1 hb, Symbol.toNat_toByte]
      omega
  | escaped _ hsymbol =>
      intro b hb
      rcases List.mem_cons.1 hb with hb | hb
      · rw [hb]
        decide
      · rw [List.mem_singleton.1 hb]
        exact Cursor.toNat_lt_of_unescape hsymbol

/-- An operator is spelled by its byte alone. -/
theorem Item.SpelledBy.eq_of_kind_ne {t : Token} {spelling : List UInt8}
    (h : SpelledBy (.token t) spelling) (hk : t.kind ≠ .literal) :
    spelling = [t.symbol.toByte] := by
  cases h with
  | plain => rfl
  | escaped hliteral => exact absurd hliteral hk

/-! ## §2. One item. -/

namespace Cursor

variable {c after : Cursor} {i : Item}

theorem exists_quotes_go (l : List UInt8) (offset : Nat) (quoted : Bool) :
    ∃ quotes, l = quotes ++ (skipQuotes.go l offset quoted).rest ∧
      (∀ b ∈ quotes, b = 0x22) ∧
      (skipQuotes.go l offset quoted).offset = offset + quotes.length := by
  induction l generalizing offset quoted with
  | nil => exact ⟨[], rfl, (fun b hb => by cases hb), rfl⟩
  | cons b l ih =>
      by_cases hb : b = 0x22
      · obtain ⟨quotes, hl, hquotes, hoffset⟩ := ih (offset + 1) (!quoted)
        rw [skipQuotes.go, if_pos hb]
        refine ⟨b :: quotes, by rw [List.cons_append, ← hl], ?_, ?_⟩
        · intro x hx
          rcases List.mem_cons.1 hx with hx | hx
          · rw [hx, hb]
          · exact hquotes x hx
        · rw [hoffset, List.length_cons]
          omega
      · rw [skipQuotes.go, if_neg hb]
        exact ⟨[], rfl, (fun x hx => by cases hx), rfl⟩

/-- **What is passed over before an item** are double quotes. -/
theorem exists_quotes (c : Cursor) :
    ∃ quotes, c.rest = quotes ++ c.skipQuotes.rest ∧ (∀ b ∈ quotes, b = 0x22) ∧
      c.skipQuotes.offset = c.offset + quotes.length :=
  exists_quotes_go c.rest c.offset c.quoted

/-- A byte that is decoded from itself. -/
theorem spelledBy_itemOf (b : UInt8) (plain : Bool) (position : Nat) :
    (itemOf ⟨b, plain⟩ position).SpelledBy [b] := by
  unfold itemOf
  cases ha : Symbol.ofByte? b with
  | some a =>
      rw [Symbol.ofByte?_eq_some_iff] at ha
      rw [ha]
      exact .plain
  | none =>
      refine .foreign (Nat.le_of_not_lt ?_)
      intro hb
      rw [Symbol.ofByte?, dif_pos hb] at ha
      cases ha

/-- A byte that is decoded from a backslash and the byte behind it. -/
theorem spelledBy_itemOf_escaped (b : UInt8) (position : Nat) :
    (itemOf ⟨unescape b, false⟩ position).SpelledBy [0x5c, b] := by
  unfold itemOf
  cases ha : Symbol.ofByte? (unescape b) with
  | some a =>
      rw [Symbol.ofByte?_eq_some_iff] at ha
      exact .escaped rfl ha.symm
  | none =>
      have hb : alphabetSize ≤ (unescape b).toNat := by
        refine Nat.le_of_not_lt ?_
        intro hb
        rw [Symbol.ofByte?, dif_pos hb] at ha
        cases ha
      have hself := unescape_eq_self hb
      show Item.SpelledBy (.foreign (unescape b) position) _
      rw [hself] at hb ⊢
      exact .foreignEscaped hb

/-- What is decoded is spelled by the bytes that are passed over. -/
theorem exists_spelling_of_spelled {s : Spelled} (h : c.spelled? = some (s, after)) :
    ∃ spelling, c.rest = spelling ++ after.rest ∧ after.offset = c.offset + spelling.length ∧
      ∀ position, (itemOf s position).SpelledBy spelling := by
  unfold spelled? at h
  split at h
  · cases h
  · next b hrest =>
      cases h
      exact ⟨[b], hrest, rfl, fun position => spelledBy_itemOf b _ position⟩
  · next b b' rest hrest =>
      split at h
      · next hesc =>
          cases h
          refine ⟨[0x5c, b'], ?_, rfl, fun position => spelledBy_itemOf_escaped b' position⟩
          rw [hrest, hesc.1]
          rfl
      · split at h
        · next hquote =>
            -- between quotes `\"` is the only escape, and `unescape` leaves the quote alone
            cases h
            refine ⟨[0x5c, b'], ?_, rfl, fun position => ?_⟩
            · rw [hrest, hquote.1]
              rfl
            · have hb : b' = unescape b' := by
                rw [hquote.2]
                rfl
              have hspelled := spelledBy_itemOf_escaped b' position
              rwa [← hb] at hspelled
        · cases h
          exact ⟨[b], hrest, rfl, fun position => spelledBy_itemOf b _ position⟩

/-- **From one item to the next** the lexer passes over double quotes and the
spelling of the item, which begins at its position. -/
theorem exists_spelling_of_next (h : c.next = some (i, after)) :
    ∃ quotes spelling, c.rest = quotes ++ (spelling ++ after.rest) ∧
      (∀ b ∈ quotes, b = 0x22) ∧ i.position = c.offset + quotes.length ∧
      after.offset = i.position + spelling.length ∧ i.SpelledBy spelling := by
  rw [next, Option.map_eq_some_iff] at h
  obtain ⟨⟨s, after'⟩, hs, he⟩ := h
  cases he
  obtain ⟨quotes, hrest, hquotes, hoffset⟩ := c.exists_quotes
  obtain ⟨spelling, hspelling, hafter, hitem⟩ := exists_spelling_of_spelled hs
  have hposition : (itemOf s c.skipQuotes.offset).position = c.skipQuotes.offset := by
    unfold itemOf
    cases Symbol.ofByte? s.byte <;> rfl
  refine ⟨quotes, spelling, ?_, hquotes, ?_, ?_, hitem _⟩
  · rw [hrest, hspelling]
  · rw [hposition, hoffset]
  · rw [hposition, hafter]

/-- At the end only double quotes are left. -/
theorem exists_quotes_of_next_eq_none (h : c.next = none) :
    (∀ b ∈ c.rest, b = 0x22) ∧ c.skipQuotes.offset = c.offset + c.rest.length := by
  obtain ⟨quotes, hrest, hquotes, hoffset⟩ := c.exists_quotes
  have hnil : c.skipQuotes.rest = [] := by
    rw [next, Option.map_eq_none_iff] at h
    unfold spelled? at h
    split at h
    · assumption
    · cases h
    · split at h
      · cases h
      · split at h <;> cases h
  rw [hnil, List.append_nil] at hrest
  rw [hrest]
  exact ⟨hquotes, hoffset⟩

/-! ## §3. All items. -/

theorem ascii_quotes {quotes : List UInt8} (h : ∀ b ∈ quotes, b = 0x22) : Ascii quotes := by
  intro b hb
  rw [h b hb]
  decide

/-- **An item behind tokens** lies behind bytes below 128. -/
theorem exists_spelling_of_items (c : Cursor) {tokens : List Token} {rest : List Item}
    (h : c.items = tokens.map Item.token ++ i :: rest) :
    ∃ front spelling further, c.rest = front ++ (spelling ++ further) ∧ Ascii front ∧
      i.position = c.offset + front.length ∧ i.SpelledBy spelling := by
  -- the induction is on the items; each token in front adds its spelling to the bytes in front
  induction c using Cursor.items.induct generalizing tokens with
  | case1 c hnext =>
      rw [items, hnext] at h
      exact absurd h.symm (by simp)
  | case2 c j after hnext ih =>
      obtain ⟨quotes, spelling, hrest, hquotes, hposition, hoffset, hspelled⟩ :=
        exists_spelling_of_next hnext
      rw [items, hnext] at h
      cases tokens with
      | nil =>
          cases h
          exact ⟨quotes, spelling, after.rest, hrest, ascii_quotes hquotes, hposition, hspelled⟩
      | cons t tokens =>
          obtain ⟨hj, htail⟩ := List.cons.inj h
          subst hj
          obtain ⟨front, spelling', further, hafter, hfront, hp, hi⟩ := ih htail
          refine ⟨quotes ++ spelling ++ front, spelling', further, ?_, ?_, ?_, hi⟩
          · rw [hrest, hafter]
            simp only [List.append_assoc]
          · exact ascii_append (ascii_append (ascii_quotes hquotes) hspelled.ascii) hfront
          · rw [hp, hoffset, hposition]
            simp only [List.length_append]
            omega

/-- **A text of tokens only** has bytes below 128 only, and ends behind the
last of them. -/
theorem ascii_of_items (c : Cursor) {tokens : List Token}
    (h : c.items = tokens.map Item.token) :
    Ascii c.rest ∧ c.stop = c.offset + c.rest.length := by
  induction c using Cursor.items.induct generalizing tokens with
  | case1 c hnext =>
      obtain ⟨hquotes, hend⟩ := exists_quotes_of_next_eq_none hnext
      rw [stop, hnext]
      exact ⟨ascii_quotes hquotes, hend⟩
  | case2 c j after hnext ih =>
      obtain ⟨quotes, spelling, hrest, hquotes, hposition, hoffset, hspelled⟩ :=
        exists_spelling_of_next hnext
      rw [items, hnext] at h
      cases tokens with
      | nil => cases h
      | cons t tokens =>
          obtain ⟨hj, htail⟩ := List.cons.inj h
          subst hj
          obtain ⟨hafter, hstop⟩ := ih htail
          rw [stop, hnext, hrest]
          refine ⟨?_, ?_⟩
          · exact ascii_append (ascii_quotes hquotes) (ascii_append hspelled.ascii hafter)
          · show after.stop = _
            rw [hstop, hoffset, hposition]
            simp only [List.length_append]
            omega

end Cursor

/-! ## §4. Texts. -/

/-- **The spelling of an item begins at its position**, and up to there the
text has bytes below 128 only, if the items before it are tokens. -/
theorem exists_spelling {pattern : String} {tokens : List Token} {i : Item} {rest : List Item}
    (h : itemsOf pattern = tokens.map Item.token ++ i :: rest) :
    ∃ front spelling further, utf8 pattern = front ++ (spelling ++ further) ∧ Ascii front ∧
      i.position = front.length ∧ i.SpelledBy spelling := by
  obtain ⟨front, spelling, further, hbytes, hfront, hposition, hi⟩ :=
    (Cursor.start pattern).exists_spelling_of_items h
  refine ⟨front, spelling, further, hbytes, hfront, ?_, hi⟩
  rw [hposition]
  exact Nat.zero_add _

/-- A text of tokens only has bytes below 128 only, and ends with them. -/
theorem ascii_of_itemsOf {pattern : String} {tokens : List Token}
    (h : itemsOf pattern = tokens.map Item.token) :
    Ascii (utf8 pattern) ∧ endOf pattern = (utf8 pattern).length := by
  obtain ⟨hascii, hstop⟩ := (Cursor.start pattern).ascii_of_items h
  refine ⟨hascii, ?_⟩
  rw [endOf, hstop]
  exact Nat.zero_add _

end LineScan
