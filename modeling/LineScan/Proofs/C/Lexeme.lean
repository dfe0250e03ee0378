/-
  LineScan.Proofs.C.Lexeme
  ────────────────────────
  **C TEXT AS LEXEMES.**

  The compressed table is C text.  To say what it means, this module and the
  two after it hold the part of C that such a text needs: lexemes, syntax and
  meaning.  What is outside that part is refused, never guessed at.

  A text is scanned one character at a time.  What has been read of a lexeme
  that is not complete yet is `Pending`, and a lexeme is as long as it can be:
  `--` is one mark, and `a12` is one name.

  The words `YYPRIVATE` and `YY_TTYPE` stand for a storage class and an
  integer type, which whoever includes the text defines, so they are keywords
  here, and `NULL` is one too.  Characters are numbered as in ASCII.
-/
import LineScan.Proofs.Text.Reading

namespace LineScan.C

/-! ## §1. Lexemes. -/

/-- Words with a meaning of their own. -/
inductive Keyword where
  /-- `YYPRIVATE` -/
  | storage
  /-- `YY_TTYPE` -/
  | cell
  /-- `int` -/
  | int
  /-- `unsigned` -/
  | unsigned
  /-- `if` -/
  | ifWord
  /-- `for` -/
  | forWord
  /-- `return` -/
  | returnWord
  /-- `NULL` -/
  | null
deriving DecidableEq, Repr

/-- Operators and brackets. -/
inductive Mark where
  | openParen | closeParen | openBracket | closeBracket | openBrace | closeBrace
  | comma | semicolon | star
  /-- `=` -/
  | assign
  /-- `+=` -/
  | addAssign
  /-- `++` -/
  | increment
  /-- `--` -/
  | decrement
  /-- `==` -/
  | equal
  /-- `>=` -/
  | atLeast
deriving DecidableEq, Repr

/-- A lexeme. -/
inductive Lexeme where
  | keyword (word : Keyword)
  | name (text : String)
  /-- An integer, written in decimal or as a character between quotes. -/
  | number (value : Nat)
  | mark (mark : Mark)
deriving DecidableEq, Repr

/-! ## §2. Words. -/

/-- The keywords, as they are written. -/
def keywords : List (String × Keyword) :=
  [ ("YYPRIVATE", .storage), ("YY_TTYPE", .cell), ("int", .int), ("unsigned", .unsigned),
    ("if", .ifWord), ("for", .forWord), ("return", .returnWord), ("NULL", .null) ]

/-- The keywords of the language that no text here needs. -/
def otherKeywords : List String :=
  [ "auto", "break", "case", "char", "const", "continue", "default", "do", "double", "else",
    "enum", "extern", "float", "goto", "inline", "long", "register", "restrict", "short",
    "signed", "sizeof", "static", "struct", "switch", "typedef", "union", "void", "volatile",
    "while", "_Alignas", "_Alignof", "_Atomic", "_Bool", "_Complex", "_Generic", "_Imaginary",
    "_Noreturn", "_Static_assert", "_Thread_local" ]

/-- Words that name nothing. -/
def reservedWords : List String := keywords.map (·.1) ++ otherKeywords

/-- A character that a name may begin with. -/
def isLetter (c : Char) : Bool := c.isAlpha || c == '_'

/-- A character that a name may go on with. -/
def isWordChar (c : Char) : Bool := isLetter c || c.isDigit

/-- The lexeme of a word that begins with a letter. -/
def ofWord? (word : String) : Option Lexeme :=
  match keywords.lookup word with
  | some k => some (.keyword k)
  | none => if word ∈ otherKeywords then none else some (.name word)

/-- The lexeme of letters and digits. -/
def wordLexeme? : List Char → Option Lexeme
  | [] => none
  | c :: cs =>
      if c.isDigit then (decimal? (c :: cs)).map .number else ofWord? (String.ofList (c :: cs))

/-! ## §3. Marks. -/

/-- A character that is a mark of its own, whatever follows it. -/
def singleMark? : Char → Option Mark
  | '(' => some .openParen
  | ')' => some .closeParen
  | '[' => some .openBracket
  | ']' => some .closeBracket
  | '\x7b' => some .openBrace
  | '\x7d' => some .closeBrace
  | ',' => some .comma
  | ';' => some .semicolon
  | _ => none

/-- Whether a character may be the first of two that are one mark. -/
def startsMark (c : Char) : Bool := c == '*' || c == '=' || c == '+' || c == '-' || c == '>'

/-- Two characters that are one mark. -/
def pairMark? : Char → Char → Option Mark
  | '=', '=' => some .equal
  | '+', '+' => some .increment
  | '+', '=' => some .addAssign
  | '-', '-' => some .decrement
  | '>', '=' => some .atLeast
  | _, _ => none

/-- The mark that the first character is when the second does not belong to
it.  (`*=` is one mark, but none that is read here.) -/
def loneMark? : Char → Char → Option Mark
  | '*', '=' => none
  | '*', _ => some .star
  | '=', _ => some .assign
  | _, _ => none

/-! ## §4. Scanning. -/

/-- What has been read of a lexeme that is not complete. -/
inductive Pending where
  /-- Nothing. -/
  | blank
  /-- Letters and digits. -/
  | word (letters : List Char)
  /-- The first character of a mark. -/
  | mark (first : Char)
  /-- A quote. -/
  | quote
  /-- A quote and a backslash. -/
  | escape
  /-- A quote and a character. -/
  | quoted (c : Char)
deriving DecidableEq, Repr

/-- Reads a character when nothing is pending. -/
def begin? (c : Char) : Option (List Lexeme × Pending) :=
  if c = ' ' ∨ c = '\n' then some ([], .blank)
  else if isWordChar c then some ([], .word [c])
  else if c = '\'' then some ([], .quote)
  else if startsMark c then some ([], .mark c)
  else (singleMark? c).map fun m => ([.mark m], .blank)

/-- **Reads a character**: the lexemes that it completes, and what is pending
after it. -/
def step? : Pending → Char → Option (List Lexeme × Pending)
  | .blank, c => begin? c
  | .word letters, c =>
      if isWordChar c then some ([], .word (letters ++ [c]))
      else if c = '\'' then none
      else do
        let word ← wordLexeme? letters
        let (ls, p) ← begin? c
        return (word :: ls, p)
  | .mark first, c =>
      match pairMark? first c with
      | some m => some ([.mark m], .blank)
      | none => do
          let m ← loneMark? first c
          let (ls, p) ← begin? c
          return (.mark m :: ls, p)
  | .quote, c =>
      if c = '\\' then some ([], .escape)
      else if c ≠ '\'' ∧ 0x20 ≤ c.toNat ∧ c.toNat ≤ 0x7E then some ([], .quoted c)
      else none
  | .escape, c => if c = '\'' ∨ c = '\\' then some ([], .quoted c) else none
  | .quoted k, c => if c = '\'' then some ([.number k.toNat], .blank) else none

/-- Reads characters. -/
def scan? (p : Pending) : List Char → Option (List Lexeme × Pending)
  | [] => some ([], p)
  | c :: cs => do
      let (ls, q) ← step? p c
      let (ms, r) ← scan? q cs
      return (ls ++ ms, r)

/-- **The lexemes of a text**, the last of which is complete. -/
def lexemes? (text : String) : Option (List Lexeme) :=
  match scan? .blank text.toList with
  | some (ls, .blank) => some ls
  | _ => none

/-! ## §5. Scanning piece by piece. -/

/-- Reading `cs` with `p` pending completes `ls` and leaves `q` pending. -/
def Scans (p : Pending) (cs : List Char) (ls : List Lexeme) (q : Pending) : Prop :=
  scan? p cs = some (ls, q)

instance (p : Pending) (cs : List Char) (ls : List Lexeme) (q : Pending) :
    Decidable (Scans p cs ls q) :=
  inferInstanceAs (Decidable (scan? p cs = some (ls, q)))

namespace Scans

variable {p q r : Pending} {cs ds : List Char} {ls ms : List Lexeme}

theorem nil (p : Pending) : Scans p [] [] p := rfl

theorem cons {c : Char} (hc : step? p c = some (ls, q)) (hcs : Scans q cs ms r) :
    Scans p (c :: cs) (ls ++ ms) r := by
  unfold Scans at *
  rw [scan?, hc]
  show (scan? q cs).bind _ = _
  rw [hcs]
  rfl

/-- **A text is scanned piece by piece.** -/
theorem append (hcs : Scans p cs ls q) (hds : Scans q ds ms r) :
    Scans p (cs ++ ds) (ls ++ ms) r := by
  induction cs generalizing p ls with
  | nil =>
      cases hcs
      exact hds
  | cons c cs ih =>
      unfold Scans at hcs
      rw [scan?] at hcs
      obtain ⟨⟨l, p'⟩, hl, hcs⟩ := Option.bind_eq_some_iff.1 hcs
      obtain ⟨⟨m, q'⟩, hm, hcs⟩ := Option.bind_eq_some_iff.1 hcs
      cases hcs
      rw [List.cons_append, List.append_assoc]
      exact cons hl (ih hm)

/-- Letters and digits are kept until something else comes. -/
theorem word (hcs : ∀ c ∈ cs, isWordChar c = true) (letters : List Char) :
    Scans (.word letters) cs [] (.word (letters ++ cs)) := by
  induction cs generalizing letters with
  | nil =>
      rw [List.append_nil]
      exact nil _
  | cons c cs ih =>
      have hc : step? (.word letters) c = some ([], .word (letters ++ [c])) := by
        rw [step?, if_pos (hcs c List.mem_cons_self)]
      have hrest := ih (fun d hd => hcs d (List.mem_cons_of_mem _ hd)) (letters ++ [c])
      rw [List.append_assoc, List.singleton_append] at hrest
      exact cons hc hrest

/-- **A whole word**, up to the character after it. -/
theorem word_end {c : Char} {l : Lexeme} (hcs : ∀ c ∈ cs, isWordChar c = true)
    (hl : wordLexeme? cs = some l) (hword : isWordChar c = false) (hquote : c ≠ '\'')
    (hc : begin? c = some (ms, q)) : Scans .blank (cs ++ [c]) (l :: ms) q := by
  cases cs with
  | nil => cases hl
  | cons a cs =>
      have ha : step? .blank a = some ([], .word [a]) := by
        have haw := hcs a List.mem_cons_self
        have hblank : ¬ (a = ' ' ∨ a = '\n') := by
          rintro (rfl | rfl) <;> cases haw
        rw [step?, begin?, if_neg hblank, if_pos haw]
      have hrest := word (fun d hd => hcs d (List.mem_cons_of_mem _ hd)) [a]
      have hend : step? (.word (a :: cs)) c = some (l :: ms, q) := by
        rw [step?, if_neg (by rw [hword]; decide), if_neg hquote, hl, hc]
        rfl
      exact cons ha (hrest.append (List.append_nil (l :: ms) ▸ cons hend (nil q)))

/-- A star that is a mark by itself. -/
theorem star {c : Char} (hc : c ≠ '=') (h : Scans .blank (c :: cs) ls q) :
    Scans (.mark '*') (c :: cs) (.mark .star :: ls) q := by
  unfold Scans at h
  rw [scan?] at h
  obtain ⟨⟨l, p'⟩, hl, h⟩ := Option.bind_eq_some_iff.1 h
  obtain ⟨⟨m, q'⟩, hm, h⟩ := Option.bind_eq_some_iff.1 h
  cases h
  have hpair : pairMark? '*' c = none := by
    unfold pairMark?
    split <;> first | rfl | contradiction
  have hlone : loneMark? '*' c = some .star := by
    unfold loneMark?
    split <;> first | rfl | contradiction
  have hstep : step? (.mark '*') c = some (.mark .star :: l, p') := by
    rw [step?, hpair, hlone]
    show (begin? c >>= _) = _
    rw [show begin? c = some (l, p') from hl]
    rfl
  exact cons hstep hm

end Scans

/-! ## §6. Numbers and names. -/

theorem isWordChar_of_isDigit {c : Char} (h : c.isDigit = true) : isWordChar c = true := by
  rw [isWordChar, h, Bool.or_true]

theorem isWordChar_of_mem_toDigits {n : Nat} {c : Char} (h : c ∈ Nat.toDigits 10 n) :
    isWordChar c = true :=
  isWordChar_of_isDigit (Nat.isDigit_of_mem_toDigits (by decide) (by decide) h)

/-- Digits are a number. -/
theorem wordLexeme?_toDigits (n : Nat) : wordLexeme? (Nat.toDigits 10 n) = some (.number n) := by
  have hn := decimal?_toDigits n
  cases hdigits : Nat.toDigits 10 n with
  | nil => exact absurd hdigits Nat.toDigits_ne_nil
  | cons c cs =>
      have hc : c.isDigit = true :=
        Nat.isDigit_of_mem_toDigits (by decide) (by decide) (hdigits ▸ List.mem_cons_self)
      rw [hdigits] at hn
      rw [wordLexeme?, if_pos hc, hn]
      rfl

/-- **A name**: a letter, then letters and digits, and no reserved word. -/
structure IsName (name : String) : Prop where
  /-- Only letters and digits. -/
  wordChar : ∀ c ∈ name.toList, isWordChar c = true
  /-- A letter first. -/
  letter : name.toList.head?.any isLetter = true
  /-- No reserved word. -/
  not_reserved : name ∉ reservedWords

instance (name : String) : Decidable (IsName name) :=
  decidable_of_iff
    (name.toList.all isWordChar = true ∧ name.toList.head?.any isLetter = true ∧
      name ∉ reservedWords)
    ⟨fun h => ⟨List.all_eq_true.1 h.1, h.2.1, h.2.2⟩,
      fun h => ⟨List.all_eq_true.2 h.wordChar, h.letter, h.not_reserved⟩⟩

theorem isDigit_eq_false_of_isLetter {c : Char} (h : isLetter c = true) : c.isDigit = false := by
  rw [isLetter, Bool.or_eq_true, beq_iff_eq] at h
  rcases h with h | rfl
  · change (decide (c.val ≥ 65 ∧ c.val ≤ 90) ||
      (decide (c.val ≥ 97) && decide (c.val ≤ 122))) = true at h
    change (decide (c.val ≥ 48) && decide (c.val ≤ 57)) = false
    have hle : ∀ a b : UInt32, a ≤ b ↔ a.toNat ≤ b.toNat := fun _ _ => Iff.rfl
    simp only [ge_iff_le, Bool.or_eq_true, Bool.and_eq_true, decide_eq_true_eq, hle,
      Bool.and_eq_false_iff, decide_eq_false_iff_not] at h ⊢
    simp at h ⊢
    omega
  · rfl

theorem ofWord?_of_not_reserved {word : String} (h : word ∉ reservedWords) :
    ofWord? word = some (.name word) := by
  rw [reservedWords, List.mem_append, not_or] at h
  have hlookup : keywords.lookup word = none := by
    rw [List.lookup_eq_none_iff]
    intro entry hentry
    rw [bne_iff_ne]
    rintro rfl
    exact h.1 (List.mem_map_of_mem hentry)
  rw [ofWord?, hlookup]
  exact if_neg h.2

/-- A name is read as itself. -/
theorem IsName.wordLexeme? {name : String} (h : IsName name) :
    C.wordLexeme? name.toList = some (.name name) := by
  have hletter := h.letter
  cases hname : name.toList with
  | nil =>
      rw [hname] at hletter
      cases hletter
  | cons c cs =>
      rw [hname] at hletter
      have hc : ¬ c.isDigit = true := by
        rw [isDigit_eq_false_of_isLetter hletter]
        decide
      rw [C.wordLexeme?, if_neg hc, ← hname, String.ofList_toList]
      exact ofWord?_of_not_reserved h.not_reserved

/-- **A name with a number after it is a name.** -/
theorem IsName.append_toString {name : String} (h : IsName name) (n : Nat) :
    IsName (name ++ toString n) := by
  have htext : (name ++ toString n).toList = name.toList ++ Nat.toDigits 10 n := by
    rw [String.toList_append, toList_toString]
  refine ⟨?_, ?_, ?_⟩
  · intro c hc
    rw [htext, List.mem_append] at hc
    exact hc.elim (h.wordChar c) isWordChar_of_mem_toDigits
  · have hletter := h.letter
    rw [htext, List.head?_append]
    cases hname : name.toList.head? with
    | none =>
        rw [hname] at hletter
        cases hletter
    | some c =>
        rw [hname] at hletter
        exact hletter
  · -- no reserved word ends in a digit
    have hends : ∀ word ∈ reservedWords, word.toList.getLast?.any Char.isDigit = false := by
      decide +kernel
    intro hmem
    have hlast := hends _ hmem
    rw [getLast?_append_toString] at hlast
    cases hlast

end LineScan.C
