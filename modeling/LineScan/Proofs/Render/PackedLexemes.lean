/-
  LineScan.Proofs.Render.PackedLexemes
  ────────────────────────────────────
  **THE LEXEMES OF A COMPRESSED TABLE.**

  Every line of a compressed table ends where a lexeme ends, so the lexemes of
  the text are those of its lines, one after the other (`Prints`).  Entries
  stand ten to a line; since each has a comma after it, the last of a line
  too, the line breaks do not show (`prints_entryLines`).
-/
import LineScan.Proofs.C.Lexeme
import LineScan.Proofs.Render.Decoder

namespace LineScan

open C

namespace PackedTable

/-! ## §1. Lines. -/

/-- Lines hold these lexemes, the last of which is complete. -/
def Prints (lines : List String) (ls : List Lexeme) : Prop :=
  Scans .blank (unlines lines).toList ls .blank

theorem Prints.append {lines more : List String} {ls ms : List Lexeme} (h : Prints lines ls)
    (h' : Prints more ms) : Prints (lines ++ more) (ls ++ ms) := by
  unfold Prints at *
  rw [unlines_append, String.toList_append]
  exact Scans.append h h'

/-- One line. -/
theorem Prints.line {line : String} {ls : List Lexeme} (h : Scans .blank line.toList ls .blank) :
    Prints [line] ls := by
  have hline : (unlines [line]).toList = line.toList ++ ['\n'] := by
    rw [toList_unlines, List.flatMap_singleton]
  have hend := Scans.append h (show Scans .blank ['\n'] [] .blank from rfl)
  rw [List.append_nil] at hend
  unfold Prints
  rw [hline]
  exact hend

/-- Lines that come in groups. -/
theorem Prints.flatMap {α : Type} {xs : List α} {lines : α → List String}
    {lexemes : α → List Lexeme} (h : ∀ x ∈ xs, Prints (lines x) (lexemes x)) :
    Prints (xs.flatMap lines) (xs.flatMap lexemes) := by
  induction xs with
  | nil => rfl
  | cons x xs ih =>
      rw [List.flatMap_cons, List.flatMap_cons]
      exact (h x List.mem_cons_self).append (ih fun y hy => h y (List.mem_cons_of_mem _ hy))

/-! ## §2. Entries. -/

theorem scans_name {x : String} (hx : IsName x) {c : Char} {ls : List Lexeme}
    (hword : isWordChar c = false) (hquote : c ≠ '\'') (hc : begin? c = some (ls, .blank)) :
    Scans .blank (x.toList ++ [c]) (.name x :: ls) .blank :=
  Scans.word_end hx.wordChar hx.wordLexeme? hword hquote hc

theorem scans_number (n : Nat) {c : Char} {ls : List Lexeme} (hword : isWordChar c = false)
    (hquote : c ≠ '\'') (hc : begin? c = some (ls, .blank)) :
    Scans .blank ((toString n).toList ++ [c]) (.number n :: ls) .blank := by
  rw [toList_toString]
  exact Scans.word_end (fun _ => isWordChar_of_mem_toDigits) (wordLexeme?_toDigits n) hword
    hquote hc

/-- A printable character between quotes is its number. -/
theorem scans_quoted {c : Char} (hquote : c ≠ '\'') (hslash : c ≠ '\\') (hlow : 0x20 ≤ c.toNat)
    (hhigh : c.toNat ≤ 0x7E) : Scans .blank ['\'', c, '\''] [.number c.toNat] .blank := by
  have hc : step? .quote c = some ([], .quoted c) := by
    rw [step?, if_neg hslash, if_pos ⟨hquote, hlow, hhigh⟩]
  have hend : step? (.quoted c) '\'' = some ([.number c.toNat], .blank) := rfl
  have hstart : step? .blank '\'' = some ([], .quote) := rfl
  exact Scans.cons hstart (Scans.cons hc (Scans.cons hend (Scans.nil .blank)))

theorem toNat_toChar (a : Symbol) : a.toChar.toNat = a.val := by
  have ha : a.val < 127 := a.isLt
  have hvalid : a.val.isValidChar := .inl (by omega)
  rw [Symbol.toChar, Char.ofNat, dif_pos hvalid]
  rfl

/-- **A symbol is written as its number**, in digits or between quotes. -/
theorem scans_symbolText (numbers : Bool) (a : Symbol) :
    Scans .blank ((symbolText numbers a).toList ++ [',']) [.number a.val, .mark .comma] .blank := by
  have hcomma : Scans .blank [','] [.mark .comma] .blank := rfl
  unfold symbolText
  split
  case isTrue => exact scans_number a.val rfl (by decide) rfl
  case isFalse h =>
      have ha : a.val < 127 := a.isLt
      have hnat := toNat_toChar a
      rw [not_or] at h
      split
      case h_1 hc =>
          rw [hc] at hnat
          rw [← hnat]
          decide +kernel
      case h_2 hc =>
          rw [hc] at hnat
          rw [← hnat]
          decide +kernel
      case h_3 hquote hslash =>
          rw [String.toList_ofList, ← hnat]
          exact Scans.append (scans_quoted hquote hslash (by omega) (by omega)) hcomma

section

variable {α : Type} {text : α → String} {lexemes : α → List Lexeme}

/-- The entries of one line. -/
theorem scans_intercalate {row : List α} (hne : row ≠ [])
    (h : ∀ x ∈ row, Scans .blank ((text x).toList ++ [',']) (lexemes x) .blank) :
    Scans .blank ((", ".intercalate (row.map text)).toList ++ [',']) (row.flatMap lexemes)
      .blank := by
  induction row with
  | nil => exact absurd rfl hne
  | cons x row ih =>
      have hx := h x List.mem_cons_self
      cases row with
      | nil =>
          rw [List.map_singleton, String.intercalate_singleton, List.flatMap_singleton]
          exact hx
      | cons y row =>
          have hrest := ih (List.cons_ne_nil _ _) fun z hz => h z (List.mem_cons_of_mem _ hz)
          have hblank : Scans .blank [' '] [] .blank := rfl
          have htext : (", ".intercalate ((x :: y :: row).map text)).toList ++ [','] =
              ((text x).toList ++ [',']) ++ ([' '] ++
                ((", ".intercalate ((y :: row).map text)).toList ++ [','])) := by
            rw [List.map_cons, List.map_cons, String.intercalate_cons_cons, String.toList_append,
              String.toList_append, List.append_assoc, List.append_assoc, List.append_assoc]
            rfl
          rw [htext, List.flatMap_cons]
          exact hx.append (hblank.append hrest)

/-- **Entries in lines** hold the lexemes of the entries, each with the comma
after it. -/
theorem prints_entryLines {xs : List α}
    (h : ∀ x ∈ xs, Scans .blank ((text x).toList ++ [',']) (lexemes x) .blank) :
    Prints (entryLines (xs.map text)) (xs.flatMap lexemes) := by
  have hlines : entryLines (xs.map text) = (rowsOf entriesPerLine xs).flatMap fun row =>
      ["          " ++ ", ".intercalate (row.map text) ++ ","] := by
    rw [entryLines, rowsOf_map, List.map_map, List.map_eq_flatMap]
    rfl
  have hentries : xs.flatMap lexemes = (rowsOf entriesPerLine xs).flatMap (·.flatMap lexemes) := by
    calc xs.flatMap lexemes = (rowsOf entriesPerLine xs).flatten.flatMap lexemes := by
          rw [flatten_rowsOf]
      _ = (rowsOf entriesPerLine xs).flatMap (·.flatMap lexemes) := by
          rw [List.flatten_eq_flatMap, List.flatMap_assoc]
          rfl
  rw [hlines, hentries]
  refine Prints.flatMap fun row hrow => Prints.line ?_
  have hindent : Scans .blank "          ".toList [] .blank := by decide +kernel
  have hline := scans_intercalate (ne_nil_of_mem_rowsOf hrow) fun x hx =>
    h x (by rw [← flatten_rowsOf entriesPerLine xs]; exact List.mem_flatten_of_mem hrow hx)
  rw [String.toList_append, String.toList_append, List.append_assoc]
  exact hindent.append hline

end

/-! ## §3. Arrays. -/

/-- An entry of an array of cells. -/
def valueLexemes (v : Nat) : List Lexeme := [.number v, .mark .comma]

/-- A pointer. -/
def targetLexeme : Option String → Lexeme
  | none => .keyword .null
  | some x => .name x

/-- An entry of an array of pointers. -/
def targetLexemes (target : Option String) : List Lexeme := [targetLexeme target, .mark .comma]

/-- An array of cells. -/
def cellsLexemes (x : String) (values : List Nat) : List Lexeme :=
  [.keyword .storage, .keyword .cell, .name x, .mark .openBracket, .mark .closeBracket,
    .mark .assign, .mark .openBrace] ++ values.flatMap valueLexemes ++
    [.mark .closeBrace, .mark .semicolon]

/-- An array of pointers. -/
def pointersLexemes (x : String) (targets : List (Option String)) : List Lexeme :=
  [.keyword .storage, .keyword .cell, .mark .star, .name x, .mark .openBracket,
    .number targets.length, .mark .closeBracket, .mark .assign, .mark .openBrace] ++
    targets.flatMap targetLexemes ++ [.mark .closeBrace, .mark .semicolon]

/-- The array of a row that has one. -/
def rowLexemes (name : String) (number : Nat) (row : PackedRow) : List Lexeme :=
  match rowTarget name number row with
  | none => []
  | some x => cellsLexemes x row.values

theorem scans_declarator : Scans .blank declarator.toList [.keyword .storage, .keyword .cell]
    .blank := by
  decide +kernel

theorem scans_value (v : Nat) : Scans .blank ((toString v).toList ++ [',']) (valueLexemes v)
    .blank :=
  scans_number v rfl (by decide) rfl

theorem scans_pair (numbers : Bool) (a : Symbol) (cell : Nat) :
    Scans .blank ((symbolText numbers a ++ "," ++ toString cell).toList ++ [','])
      (valueLexemes a.val ++ valueLexemes cell) .blank := by
  rw [String.toList_append, String.toList_append, List.append_assoc]
  exact (scans_symbolText numbers a).append (scans_value cell)

/-- The first line of a row. -/
theorem scans_opening {x : String} (hx : IsName x) (v : Nat) :
    Scans .blank (declarator ++ x ++ "[] = \x7b " ++ toString v ++ ",").toList
      ([.keyword .storage, .keyword .cell, .name x, .mark .openBracket, .mark .closeBracket,
        .mark .assign, .mark .openBrace] ++ valueLexemes v) .blank := by
  have hname := scans_name hx (c := '[') rfl (by decide) rfl
  have hbrace : Scans .blank "] = \x7b ".toList
      [.mark .closeBracket, .mark .assign, .mark .openBrace] .blank := by
    decide +kernel
  have htext : (declarator ++ x ++ "[] = \x7b " ++ toString v ++ ",").toList =
      declarator.toList ++ ((x.toList ++ ['[']) ++ ("] = \x7b ".toList ++
        ((toString v).toList ++ [',']))) := by
    simp only [String.toList_append, List.append_assoc]
    rfl
  rw [htext]
  exact scans_declarator.append (hname.append (hbrace.append (scans_value v)))

theorem prints_closing : Prints ["\x7d;"] [.mark .closeBrace, .mark .semicolon] :=
  Prints.line (by decide +kernel)

/-- The pairs of a sparse row, line by line. -/
theorem prints_pairs (numbers : Bool) (pairs : List (Symbol × Nat)) :
    Prints (entryLines (entryTexts numbers (.sparse pairs)))
      ((PackedRow.numbersOf pairs).flatMap valueLexemes) := by
  have hnumbers : (PackedRow.numbersOf pairs).flatMap valueLexemes =
      pairs.flatMap fun pair => valueLexemes pair.1.val ++ valueLexemes pair.2 := by
    rw [PackedRow.numbersOf, List.flatMap_assoc]
    rfl
  rw [hnumbers]
  exact prints_entryLines fun pair _ => scans_pair numbers pair.1 pair.2

/-- The cells of a dense row, line by line. -/
theorem prints_cells (numbers : Bool) (cells : List Nat) :
    Prints (entryLines (entryTexts numbers (.dense cells))) (cells.flatMap valueLexemes) :=
  prints_entryLines fun cell _ => scans_value cell

/-- **The lines of a row** declare its array. -/
theorem prints_rowLines {options : PackedTableOptions} (hname : IsName options.name) (number : Nat)
    (row : PackedRow) :
    Prints (rowLines options number row) (rowLexemes options.name number row) := by
  have hrow : ∀ {v : Nat} {texts : List String} {rest : List Nat},
      Prints (entryLines texts) (rest.flatMap valueLexemes) →
      Prints ([declarator ++ rowName options number ++ "[] = \x7b " ++ toString v ++ ","] ++
        entryLines texts ++ ["\x7d;"])
        (cellsLexemes (options.name ++ toString number) (v :: rest)) := by
    intro v texts rest h
    have hopening := Prints.line (scans_opening (hname.append_toString number) v)
    have hall := (hopening.append h).append prints_closing
    simp only [cellsLexemes, List.flatMap_cons, List.append_assoc] at hall ⊢
    exact hall
  cases row with
  | empty => rfl
  | sparse pairs => exact hrow (prints_pairs options.numbers pairs)
  | dense cells => exact hrow (v := 0) (prints_cells options.numbers cells)

/-! ## §4. The array of pointers. -/

theorem length_targetsOf (name : String) (rows : List PackedRow) :
    (targetsOf name rows).length = rows.length := by
  rw [targetsOf, List.length_map, List.length_zipIdx]

theorem scans_pointerText {options : PackedTableOptions} (hname : IsName options.name)
    (number : Nat) (row : PackedRow) :
    Scans .blank ((pointerText options number row).toList ++ [','])
      (targetLexemes (rowTarget options.name number row)) .blank := by
  have hrow : Scans .blank ((rowName options number).toList ++ [','])
      [.name (options.name ++ toString number), .mark .comma] .blank :=
    scans_name (hname.append_toString number) rfl (by decide) rfl
  cases row with
  | empty =>
      show Scans .blank ("NULL".toList ++ [',']) [.keyword .null, .mark .comma] .blank
      decide +kernel
  | sparse pairs => exact hrow
  | dense cells => exact hrow

/-- The first line of the array of pointers. -/
theorem scans_pointers_opening {x : String} (hx : IsName x) (size : Nat) :
    Scans .blank (declarator ++ "*" ++ x ++ "[" ++ toString size ++ "] = \x7b").toList
      [.keyword .storage, .keyword .cell, .mark .star, .name x, .mark .openBracket, .number size,
        .mark .closeBracket, .mark .assign, .mark .openBrace] .blank := by
  have hstar : Scans .blank ['*'] [] (.mark '*') := rfl
  have hname := scans_name hx (c := '[') rfl (by decide) rfl
  have hsize := scans_number size (c := ']') rfl (by decide) rfl
  have hbrace : Scans .blank " = \x7b".toList [.mark .assign, .mark .openBrace] .blank := by
    decide +kernel
  have hletter := hx.letter
  have htext : (declarator ++ "*" ++ x ++ "[" ++ toString size ++ "] = \x7b").toList =
      declarator.toList ++ (['*'] ++ ((x.toList ++ ['[']) ++ (((toString size).toList ++ [']']) ++
        " = \x7b".toList))) := by
    simp only [String.toList_append, List.append_assoc]
    rfl
  rw [htext]
  cases hchars : x.toList with
  | nil =>
      rw [hchars] at hletter
      cases hletter
  | cons c cs =>
      have hc : c ≠ '=' := by
        rintro rfl
        rw [hchars] at hletter
        cases hletter
      rw [hchars] at hname
      exact scans_declarator.append
        (hstar.append ((Scans.star hc hname).append (hsize.append hbrace)))

/-- **The lines of the array of pointers.** -/
theorem prints_pointerLines {options : PackedTableOptions} (hname : IsName options.name)
    (rows : List PackedRow) :
    Prints (pointerLines options rows)
      (pointersLexemes options.name (targetsOf options.name rows)) := by
  have hentries : Prints (entryLines (rows.zipIdx.map fun entry =>
        pointerText options entry.2 entry.1))
      ((targetsOf options.name rows).flatMap targetLexemes) := by
    rw [targetsOf, List.flatMap_map]
    exact prints_entryLines fun entry _ => scans_pointerText hname entry.2 entry.1
  have hall := ((Prints.line (scans_pointers_opening hname rows.length)).append hentries).append
    prints_closing
  rw [pointersLexemes, length_targetsOf]
  exact hall

/-! ## §5. The decoder. -/

/-- The head of the decoder. -/
def headLexemes : List Lexeme :=
  [ .keyword .storage, .keyword .cell, .name "yy_next", .mark .openParen, .keyword .int,
    .name "cur_state", .mark .comma, .keyword .unsigned, .keyword .int, .name "c",
    .mark .closeParen, .mark .openBrace ]

/-- The line with the name of the array of pointers. -/
def pointerLexemes (name : String) : List Lexeme :=
  [ .keyword .cell, .mark .star, .name "p", .mark .assign, .name name, .mark .openBracket,
    .name "cur_state", .mark .closeBracket, .mark .semicolon ]

/-- The decoder after that line. -/
def bodyLexemes : List Lexeme :=
  [ .keyword .int, .name "i", .mark .semicolon,
    .keyword .ifWord, .mark .openParen, .name "p", .mark .closeParen, .mark .openBrace,
    .keyword .ifWord, .mark .openParen, .mark .openParen, .name "i", .mark .assign, .mark .star,
    .name "p", .mark .increment, .mark .closeParen, .mark .equal, .number 0, .mark .closeParen,
    .keyword .returnWord, .name "p", .mark .openBracket, .name "c", .mark .closeBracket,
    .mark .semicolon,
    .keyword .forWord, .mark .openParen, .mark .semicolon, .mark .decrement, .name "i",
    .mark .atLeast, .number 0, .mark .semicolon, .name "p", .mark .addAssign, .number 2,
    .mark .closeParen,
    .keyword .ifWord, .mark .openParen, .name "c", .mark .equal, .name "p", .mark .openBracket,
    .number 0, .mark .closeBracket, .mark .closeParen,
    .keyword .returnWord, .name "p", .mark .openBracket, .number 1, .mark .closeBracket,
    .mark .semicolon, .mark .closeBrace,
    .keyword .returnWord, .number 0, .mark .semicolon, .mark .closeBrace ]

/-- **The lines of the decoder.** -/
theorem prints_decoderLines {options : PackedTableOptions} (hname : IsName options.name) :
    Prints (decoderLines options)
      (headLexemes ++ pointerLexemes options.name ++ bodyLexemes) := by
  have hhead : Prints [declarator ++ "yy_next(int cur_state, unsigned int c)", "\x7b"]
      headLexemes := by
    show Scans _ _ _ _
    decide +kernel
  have hpointer : Prints ["    YY_TTYPE *p = " ++ options.name ++ "[cur_state];"]
      (pointerLexemes options.name) := by
    have hbefore : Scans .blank "    YY_TTYPE *p = ".toList
        [.keyword .cell, .mark .star, .name "p", .mark .assign] .blank := by
      decide +kernel
    have hafter : Scans .blank "cur_state];".toList
        [.name "cur_state", .mark .closeBracket, .mark .semicolon] .blank := by
      decide +kernel
    have htext : ("    YY_TTYPE *p = " ++ options.name ++ "[cur_state];").toList =
        "    YY_TTYPE *p = ".toList ++
          ((options.name.toList ++ ['[']) ++ "cur_state];".toList) := by
      simp only [String.toList_append, List.append_assoc]
      rfl
    refine Prints.line ?_
    rw [htext]
    exact hbefore.append ((scans_name hname (c := '[') rfl (by decide) rfl).append hafter)
  have hbody : Prints
      [ "    int i;",
        "    if (p) \x7b",
        "        if ((i = *p++) == 0)",
        "            return p[c];",
        "        for (; --i >= 0; p += 2)",
        "            if (c == p[0])",
        "                return p[1];",
        "    \x7d",
        "    return 0;",
        "\x7d" ] bodyLexemes := by
    show Scans _ _ _ _
    decide +kernel
  exact (hhead.append hpointer).append hbody

end PackedTable
end LineScan
