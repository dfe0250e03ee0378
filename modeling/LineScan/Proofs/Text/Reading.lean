/-
  LineScan.Proofs.Text.Reading
  ────────────────────────────
  **READING NUMERALS AND LINES BACK.**

  The renderings write numbers in decimal and text in lines.  This module
  holds the two readers that go the other way, and says that they find what
  was written; and it says what breaking a list into rows keeps.

      numerals    `decimal?` after `toString`            (`decimal?_toDigits`)
      lines       `List.splitOn` after `unlines`         (`splitOn_unlines`)

  `decimal?` refuses a leading zero: in many languages such a numeral is not
  a decimal one.
-/
import LineScan.Text.Layout
import Mathlib.Data.List.Basic

namespace LineScan

/-! ## §1. Numerals. -/

/-- The number that a decimal numeral stands for: digits only, at least one,
and no zero before another digit. -/
def decimal? : List Char → Option Nat
  | [] => none
  | '0' :: _ :: _ => none
  | cs => if cs.all Char.isDigit then some (Nat.ofDigitChars 10 cs 0) else none

/-- A positive number is written without a leading zero. -/
theorem head?_toDigits_ne_zero {n : Nat} (h : 0 < n) : (Nat.toDigits 10 n).head? ≠ some '0' := by
  induction n using Nat.strongRecOn with
  | ind n ih =>
      by_cases hn : n < 10
      · rw [Nat.toDigits_of_lt_base hn, List.head?_cons]
        intro hzero
        have : n = 0 := Nat.digitChar_eq_zero.1 (Option.some.inj hzero)
        omega
      · -- the first digit is the first digit of a tenth
        have hten : 10 ≤ n := Nat.le_of_not_lt hn
        rw [Nat.toDigits_of_base_le (by decide) hten,
          List.head?_append_of_ne_nil _ Nat.toDigits_ne_nil]
        exact ih (n / 10) (by omega) (by omega)

/-- **A number is read as it was written.** -/
theorem decimal?_toDigits (n : Nat) : decimal? (Nat.toDigits 10 n) = some n := by
  have hdigits : (Nat.toDigits 10 n).all Char.isDigit = true :=
    List.all_eq_true.2 fun c hc => Nat.isDigit_of_mem_toDigits (by decide) (by decide) hc
  unfold decimal?
  split
  case h_1 hnil => exact absurd hnil Nat.toDigits_ne_nil
  case h_2 c cs hzero =>
      rcases Nat.eq_zero_or_pos n with hn | hn
      · rw [hn, Nat.toDigits_zero] at hzero
        cases hzero
      · exact absurd (by rw [hzero]; rfl) (head?_toDigits_ne_zero hn)
  case h_3 => rw [if_pos hdigits, Nat.ofDigitChars_ten_toDigits]

theorem not_mem_toDigits {c : Char} (h : c.isDigit = false) (n : Nat) : c ∉ Nat.toDigits 10 n := by
  intro hc
  rw [Nat.isDigit_of_mem_toDigits (by decide) (by decide) hc] at h
  cases h

theorem toList_toString (n : Nat) : (toString n).toList = Nat.toDigits 10 n := by
  rw [Nat.toString_eq_repr, Nat.toList_repr]

/-- A name with a number after it shows the number. -/
theorem append_toString_inj {name : String} {j k : Nat}
    (h : name ++ toString j = name ++ toString k) : j = k := by
  have hlists := congrArg String.toList h
  rw [String.toList_append, String.toList_append, toList_toString, toList_toString] at hlists
  have hdigits : Nat.toDigits 10 j = Nat.toDigits 10 k := List.append_cancel_left hlists
  calc j = Nat.ofDigitChars 10 (Nat.toDigits 10 j) 0 := Nat.ofDigitChars_ten_toDigits.symm
    _ = Nat.ofDigitChars 10 (Nat.toDigits 10 k) 0 := by rw [hdigits]
    _ = k := Nat.ofDigitChars_ten_toDigits

/-- A name with a number after it ends in a digit. -/
theorem getLast?_append_toString (name : String) (n : Nat) :
    (name ++ toString n).toList.getLast?.any Char.isDigit = true := by
  rw [String.toList_append, toList_toString, List.getLast?_append_of_ne_nil _ Nat.toDigits_ne_nil,
    List.getLast?_eq_some_getLast Nat.toDigits_ne_nil, Option.any_some]
  exact Nat.isDigit_of_mem_toDigits (by decide) (by decide) (List.getLast_mem _)

theorem toList_padLeft (width : Nat) (fill : Char) (n : Nat) :
    (padLeft width fill n).toList =
      List.replicate (width - (Nat.toDigits 10 n).length) fill ++ Nat.toDigits 10 n := by
  rw [padLeft, String.toList_ofList, List.leftpad, toList_toString]

theorem not_mem_padLeft {c fill : Char} (hdigit : c.isDigit = false) (hfill : c ≠ fill)
    (width n : Nat) : c ∉ (padLeft width fill n).toList := by
  rw [toList_padLeft, List.mem_append]
  rintro (hc | hc)
  · exact hfill (List.eq_of_mem_replicate hc)
  · exact not_mem_toDigits hdigit n hc

/-- Blanks before a numeral do not hide it. -/
theorem dropWhile_blank_toDigits (k n : Nat) :
    (List.replicate k ' ' ++ Nat.toDigits 10 n).dropWhile (· == ' ') = Nat.toDigits 10 n := by
  rw [List.dropWhile_append_of_pos fun c hc => by rw [List.eq_of_mem_replicate hc]; rfl]
  cases hdigits : Nat.toDigits 10 n with
  | nil => rfl
  | cons c cs =>
      have hc : (c == ' ') = false := by
        rw [beq_eq_false_iff_ne]
        rintro rfl
        exact not_mem_toDigits (by decide) n (hdigits ▸ List.mem_cons_self)
      rw [List.dropWhile_cons_of_neg (by rw [hc]; decide)]

/-! ## §2. Lines. -/

theorem toList_unlines (lines : List String) :
    (unlines lines).toList = lines.flatMap fun line => line.toList ++ ['\n'] := by
  rw [unlines, String.toList_join, List.flatMap_map]
  simp only [String.toList_append]
  rfl

/-- **Lines are found as they were written**, up to the rest of the text. -/
theorem splitOn_unlines {lines : List String} (h : ∀ line ∈ lines, '\n' ∉ line.toList)
    (rest : List Char) :
    ((unlines lines).toList ++ rest).splitOn '\n' =
      lines.map String.toList ++ rest.splitOn '\n' := by
  rw [toList_unlines]
  induction lines with
  | nil => rfl
  | cons line lines ih =>
      have hline := h line List.mem_cons_self
      have hrest := ih fun l hl => h l (List.mem_cons_of_mem _ hl)
      rw [List.flatMap_cons, List.append_assoc, List.append_assoc, List.singleton_append,
        List.splitOn_append_cons_self_of_not_mem hline, hrest]
      rfl

/-- **Lines without line feeds** are told apart by their text. -/
theorem unlines_inj {lines lines' : List String} (h : ∀ line ∈ lines, '\n' ∉ line.toList)
    (h' : ∀ line ∈ lines', '\n' ∉ line.toList) (heq : unlines lines = unlines lines') :
    lines = lines' := by
  have hsplit := splitOn_unlines h []
  rw [heq, splitOn_unlines h' []] at hsplit
  have hmap : lines'.map String.toList = lines.map String.toList := List.append_cancel_right hsplit
  exact (List.map_injective_iff.2 (fun _ _ => String.toList_inj.1) hmap).symm

/-- The last line of a text ends where the text ends. -/
theorem exists_splitOn_append_singleton {sep c : Char} (h : c ≠ sep) (cs : List Char) :
    ∃ (front : List (List Char)) (last : List Char),
      (cs ++ [c]).splitOn sep = front ++ [last ++ [c]] := by
  induction cs with
  | nil =>
      refine ⟨[], [], ?_⟩
      rw [List.nil_append, List.splitOn_eq_singleton (by simpa using h.symm)]
      rfl
  | cons x cs ih =>
      obtain ⟨front, last, hsplit⟩ := ih
      rw [List.cons_append, List.splitOn_cons_eq_if_modifyHead, hsplit]
      split
      · exact ⟨[] :: front, last, rfl⟩
      · cases front with
        | nil => exact ⟨[], x :: last, rfl⟩
        | cons first front => exact ⟨(x :: first) :: front, last, rfl⟩

/-! ## §3. Rows. -/

section

variable {α β : Type}

theorem rowsOf_map (f : α → β) (width : Nat) (entries : List α) :
    rowsOf width (entries.map f) = (rowsOf width entries).map (List.map f) := by
  fun_induction rowsOf width entries with
  | case1 => rw [List.map_nil, rowsOf, List.map_nil]
  | case2 x rest ih =>
      rw [List.map_cons, rowsOf, List.map_cons, ← List.map_drop, ih, ← List.map_take, List.map_cons]

theorem ne_nil_of_mem_rowsOf {width : Nat} {entries row : List α} (h : row ∈ rowsOf width entries) :
    row ≠ [] := by
  fun_induction rowsOf width entries with
  | case1 => cases h
  | case2 x rest ih =>
      rcases List.mem_cons.1 h with rfl | h
      · exact List.cons_ne_nil _ _
      · exact ih h

end

end LineScan
