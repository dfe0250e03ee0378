/-
  LineScan.Proofs.Text.Utf8
  ─────────────────────────
  **OFFSETS AND COLUMNS.**

  A byte offset is at a character boundary when the text falls into two texts
  there.  At such an offset `columnOf` counts the characters of the first one
  (`columnOf_append`).  And an offset with only bytes below 128 before it is
  at a boundary: up to there every byte is a character
  (`exists_split_of_ascii`).
-/
import LineScan.Text.Utf8
import Mathlib.Data.List.Basic

namespace LineScan

/-! ## §1. Bytes of a text. -/

theorem utf8_append (s t : String) : utf8 (s ++ t) = utf8 s ++ utf8 t := by
  simp [utf8]

/-- The bytes of a list of characters are as many as its text is long. -/
theorem length_utf8_ofList (cs : List Char) :
    (cs.flatMap String.utf8EncodeChar).length = (String.ofList cs).utf8ByteSize := by
  induction cs with
  | nil => rfl
  | cons c cs ih =>
      have hcons : String.ofList (c :: cs) = String.singleton c ++ String.ofList cs := by
        rw [← String.toList_inj]
        simp
      rw [hcons, String.utf8ByteSize_append, String.utf8ByteSize_singleton, ← ih,
        List.flatMap_cons, List.length_append, String.length_utf8EncodeChar]

theorem length_utf8 (s : String) : (utf8 s).length = s.utf8ByteSize := by
  rw [utf8, length_utf8_ofList, String.ofList_toList]

/-! ## §2. Columns. -/

theorem columnOf_go_append (here : Nat) (front rest : List Char) :
    columnOf.go (here + (front.flatMap String.utf8EncodeChar).length) here (front ++ rest) =
      front.length := by
  induction front generalizing here with
  | nil =>
      -- the first character behind the boundary starts at the offset, not before it
      cases rest <;> simp [columnOf.go]
  | cons c front ih =>
      have hpos := Char.utf8Size_pos c
      have hoffset : here + ((c :: front).flatMap String.utf8EncodeChar).length =
          here + c.utf8Size + (front.flatMap String.utf8EncodeChar).length := by
        rw [List.flatMap_cons, List.length_append, String.length_utf8EncodeChar]
        omega
      rw [hoffset, List.cons_append, columnOf.go, if_pos (by omega), ih, List.length_cons]

/-- **At a character boundary the column is the number of characters before
it.** -/
theorem columnOf_append (before after : String) :
    columnOf (before ++ after) before.utf8ByteSize = before.length := by
  have h := columnOf_go_append 0 before.toList after.toList
  rw [Nat.zero_add] at h
  rw [columnOf, String.toList_append, ← length_utf8, ← String.length_toList]
  exact h

/-! ## §3. Boundaries. -/

/-- A character whose first byte is below 128 has no other byte. -/
theorem utf8EncodeChar_eq_singleton_of_lt {c : Char} {b : UInt8} {rest : List UInt8}
    (h : String.utf8EncodeChar c = b :: rest) (hb : b.toNat < 128) : rest = [] := by
  by_cases hone : c.utf8Size = 1
  · rw [String.utf8EncodeChar_eq_singleton hone] at h
    exact (List.cons.inj h).2.symm
  · have hlarge : ¬ c.val.toNat ≤ 127 := by
      rw [Char.utf8Size_eq_one_iff] at hone
      exact hone
    -- the first of several bytes has its highest bit set
    have hclash : ∀ first more, first :: more = b :: rest → 128 ≤ first.toNat → rest = [] := by
      intro first more heq hbit
      rw [(List.cons.inj heq).1] at hbit
      omega
    unfold String.utf8EncodeChar at h
    simp only [hlarge, if_false] at h
    split at h
    · exact hclash _ _ h (by simp; omega)
    · split at h
      · exact hclash _ _ h (by simp; omega)
      · exact hclash _ _ h (by simp; omega)

theorem exists_chars_of_ascii (cs : List Char) (n : Nat)
    (hn : n ≤ (cs.flatMap String.utf8EncodeChar).length)
    (hascii : ∀ b ∈ (cs.flatMap String.utf8EncodeChar).take n, b.toNat < 128) :
    ∃ front rest, cs = front ++ rest ∧
      (front.flatMap String.utf8EncodeChar).length = n := by
  induction cs generalizing n with
  | nil =>
      have hzero : n = 0 := by simpa using hn
      exact ⟨[], [], rfl, by rw [hzero]; rfl⟩
  | cons c cs ih =>
      cases n with
      | zero => exact ⟨[], c :: cs, rfl, rfl⟩
      | succ n =>
          cases hc : String.utf8EncodeChar c with
          | nil => exact absurd hc String.utf8EncodeChar_ne_nil
          | cons b more =>
              rw [List.flatMap_cons, hc] at hn hascii
              have hmore : more = [] :=
                utf8EncodeChar_eq_singleton_of_lt hc (hascii b (by simp))
              subst hmore
              obtain ⟨front, rest, hcs, hlength⟩ := ih n (by simpa using hn)
                (fun x hx => hascii x (by simp [hx]))
              refine ⟨c :: front, rest, by rw [hcs, List.cons_append], ?_⟩
              rw [List.flatMap_cons, hc, List.length_append, hlength]
              simp [Nat.add_comm]

/-- **An offset behind bytes below 128 is at a character boundary.** -/
theorem exists_split_of_ascii {s : String} {front rest : List UInt8}
    (h : utf8 s = front ++ rest) (hascii : ∀ b ∈ front, b.toNat < 128) :
    ∃ before after : String, s = before ++ after ∧ before.utf8ByteSize = front.length ∧
      utf8 after = rest := by
  have htake : (utf8 s).take front.length = front := by
    rw [h, List.take_left]
  obtain ⟨cs, ds, hcs, hlength⟩ := exists_chars_of_ascii s.toList front.length
    (by show front.length ≤ (utf8 s).length; simp [h])
    (by show ∀ b ∈ (utf8 s).take front.length, b.toNat < 128; rwa [htake])
  have hs : s = String.ofList cs ++ String.ofList ds := by
    rw [← String.ofList_append, ← hcs, String.ofList_toList]
  have hsize : (String.ofList cs).utf8ByteSize = front.length := by
    rw [← length_utf8_ofList, hlength]
  refine ⟨String.ofList cs, String.ofList ds, hs, hsize, ?_⟩
  -- both sides are what is left of the bytes behind the boundary
  rw [hs, utf8_append] at h
  refine (List.append_inj h ?_).2
  rw [length_utf8, hsize]

end LineScan
