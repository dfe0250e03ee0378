/-
  LineScan.Proofs.Pattern.Calls
  ─────────────────────────────
  **CALL BY CALL, A TEXT IS PASSED OVER ONCE.**

  A lexer is asked for one item after the other, also behind a foreign byte
  and behind the end.  A `Call` is what its caller sees of one answer: the
  item, the offset where it starts, and the offset that the lexer has come to.
  Between two calls the lexer goes

      start ── double quotes ──▶ reported offset ── spelling ──▶ next start

  The invariant is that the bytes ahead are the text from the offset on
  (`Cursor.Reads`).  So each call takes over where the one before has stopped,
  what is passed over outside the spellings are double quotes that open or
  close a span, and a call at the end changes nothing any more.

  Main result: `lossless`.
-/
import LineScan.Proofs.Pattern.Spelling
import Mathlib.Order.Monotone.Basic

namespace LineScan

/-! ## §1. Calls. -/

/-- **The place after one more call**: behind the next item, or behind the
double quotes at the end. -/
def Cursor.advance (c : Cursor) : Cursor :=
  match c.next with
  | some (_, after) => after
  | none => c.skipQuotes

/-- The place before a call; the first one has the number zero. -/
def cursorAt (pattern : String) (k : Nat) : Cursor := Cursor.advance^[k] (Cursor.start pattern)

/-- One answer of a lexer. -/
structure Call where
  /-- The item, unless the text has ended. -/
  item : Option Item
  /-- The reported offset. -/
  start : Nat
  /-- The offset that the lexer has come to. -/
  stop : Nat

/-- The answer at a place. -/
def Cursor.call (c : Cursor) : Call :=
  ⟨c.next.map Prod.fst, c.skipQuotes.offset, c.advance.offset⟩

/-- **The answers to the calls on a text**, one after the other. -/
def callOf (pattern : String) (k : Nat) : Call := (cursorAt pattern k).call

/-- The offset is in the span of the item. -/
def Call.Spans (call : Call) (p : Nat) : Prop := call.start ≤ p ∧ p < call.stop

theorem cursorAt_succ (pattern : String) (k : Nat) :
    cursorAt pattern (k + 1) = (cursorAt pattern k).advance :=
  Function.iterate_succ_apply' Cursor.advance k _

namespace Cursor

variable {c after : Cursor} {i : Item}

theorem advance_of_some (h : c.next = some (i, after)) : c.advance = after := by
  unfold advance
  rw [h]

theorem advance_of_none (h : c.next = none) : c.advance = c.skipQuotes := by
  unfold advance
  rw [h]

/-! ## §2. Double quotes open and close. -/

/-- The mode changes with every double quote that is passed over. -/
theorem quoted_skipQuotes_go (l : List UInt8) (offset : Nat) (quoted : Bool) :
    (skipQuotes.go l offset quoted).quoted =
      (quoted ^^ decide (((skipQuotes.go l offset quoted).offset - offset) % 2 = 1)) := by
  induction l generalizing offset quoted with
  | nil => simp [skipQuotes.go]
  | cons b l ih =>
      unfold skipQuotes.go
      split
      · obtain ⟨quotes, _, _, hoffset⟩ := exists_quotes_go l (offset + 1) (!quoted)
        rw [ih, hoffset]
        -- one double quote more turns even into odd, and odd into even
        have hparity : decide ((offset + 1 + quotes.length - offset) % 2 = 1) =
            !decide ((offset + 1 + quotes.length - (offset + 1)) % 2 = 1) := by
          rw [← decide_not, decide_eq_decide]
          omega
        rw [hparity]
        cases quoted <;> simp
      · simp

/-- Reading an item leaves the mode as it is. -/
theorem quoted_of_spelled {s : Spelled} (h : c.spelled? = some (s, after)) :
    after.quoted = c.quoted := by
  unfold spelled? at h
  split at h
  · cases h
  · cases h
    rfl
  · split at h
    · cases h
      rfl
    · split at h
      · cases h
        rfl
      · cases h
        rfl

/-- **A call changes the mode with every double quote it passes over**, and
with nothing else. -/
theorem quoted_advance (c : Cursor) :
    c.advance.quoted =
      (c.quoted ^^ decide ((c.skipQuotes.offset - c.offset) % 2 = 1)) := by
  have hskip : c.skipQuotes.quoted =
      (c.quoted ^^ decide ((c.skipQuotes.offset - c.offset) % 2 = 1)) :=
    quoted_skipQuotes_go c.rest c.offset c.quoted
  rw [← hskip]
  cases h : c.next with
  | none => rw [advance_of_none h]
  | some r =>
      obtain ⟨i, after⟩ := r
      rw [advance_of_some h]
      rw [next, Option.map_eq_some_iff] at h
      obtain ⟨⟨s, after'⟩, hs, he⟩ := h
      cases he
      exact quoted_of_spelled hs

/-! ## §3. One call. -/

/-- **The bytes ahead are the text from the offset on.** -/
def Reads (c : Cursor) (bytes : List UInt8) : Prop :=
  ∃ behind, bytes = behind ++ c.rest ∧ c.offset = behind.length

variable {bytes : List UInt8}

theorem reads_start (pattern : String) : (start pattern).Reads (utf8 pattern) := ⟨[], rfl, rfl⟩

theorem Reads.offset_le (h : c.Reads bytes) : c.offset ≤ bytes.length := by
  obtain ⟨behind, hbytes, hoffset⟩ := h
  rw [hbytes, hoffset, List.length_append]
  omega

/-- Behind some of the bytes ahead are the bytes ahead of the next place. -/
theorem Reads.append {front : List UInt8} (h : c.Reads bytes) (hrest : c.rest = front ++ after.rest)
    (hoffset : after.offset = c.offset + front.length) : after.Reads bytes := by
  obtain ⟨behind, hbytes, hbehind⟩ := h
  refine ⟨behind ++ front, ?_, ?_⟩
  · rw [hbytes, hrest, List.append_assoc]
  · rw [hoffset, hbehind, List.length_append]

/-- Up to the reported offset the text has double quotes. -/
theorem Reads.getElem?_of_lt {p : Nat} (h : c.Reads bytes) (hp : c.offset ≤ p)
    (hlt : p < c.skipQuotes.offset) : bytes[p]? = some 0x22 := by
  obtain ⟨behind, hbytes, hbehind⟩ := h
  obtain ⟨quotes, hrest, hquotes, hoffset⟩ := c.exists_quotes
  rw [hbytes, hrest, List.getElem?_append_right (by omega),
    List.getElem?_append_left (by omega), List.getElem?_eq_getElem (by omega)]
  exact congrArg some (hquotes _ (List.getElem_mem _))

theorem Reads.skipQuotes (h : c.Reads bytes) : c.skipQuotes.Reads bytes := by
  obtain ⟨quotes, hrest, _, hoffset⟩ := c.exists_quotes
  exact h.append hrest hoffset

theorem offset_le_skipQuotes (c : Cursor) : c.offset ≤ c.skipQuotes.offset := by
  obtain ⟨_, _, _, hoffset⟩ := c.exists_quotes
  omega

theorem length_of_spelledBy {spelling : List UInt8} (h : i.SpelledBy spelling) :
    spelling.length = 1 ∨ spelling.length = 2 := by
  cases h with
  | plain => exact .inl rfl
  | escaped => exact .inr rfl
  | foreign => exact .inl rfl
  | foreignEscaped => exact .inr rfl

/-- **A call that brings an item** passes over its spelling, which is one byte
or two and begins at the reported offset. -/
theorem Reads.advance_item (h : c.Reads bytes) (hnext : c.next = some (i, after)) :
    i.position = c.skipQuotes.offset ∧
      (after.offset = c.skipQuotes.offset + 1 ∨ after.offset = c.skipQuotes.offset + 2) ∧
      after.Reads bytes := by
  obtain ⟨quotes, spelling, hrest, _, hposition, hoffset, hspelled⟩ :=
    exists_spelling_of_next hnext
  have hreported : i.position = c.skipQuotes.offset := by
    rw [next, Option.map_eq_some_iff] at hnext
    obtain ⟨⟨s, after'⟩, _, he⟩ := hnext
    cases he
    unfold itemOf
    cases Symbol.ofByte? s.byte <;> rfl
  refine ⟨hreported, ?_, ?_⟩
  · have hlength := length_of_spelledBy hspelled
    omega
  · have hpassed : c.rest = (quotes ++ spelling) ++ after.rest := by
      rw [hrest, List.append_assoc]
    apply h.append hpassed
    rw [List.length_append]
    omega

/-- **A call at the end** reports the end, and stays there. -/
theorem Reads.advance_end (h : c.Reads bytes) (hnext : c.next = none) :
    c.skipQuotes.offset = bytes.length ∧ c.advance.next = none := by
  obtain ⟨behind, hbytes, hbehind⟩ := h
  obtain ⟨_, hoffset⟩ := exists_quotes_of_next_eq_none hnext
  refine ⟨?_, ?_⟩
  · rw [hoffset, hbehind, hbytes, List.length_append]
  · obtain ⟨quotes, hrest, _, hskip⟩ := c.exists_quotes
    -- all bytes ahead were double quotes, so none is left
    have hnil : c.skipQuotes.rest = [] := by
      have hlength := congrArg List.length hrest
      rw [List.length_append] at hlength
      exact List.length_eq_zero_iff.1 (by omega)
    have hstay : c.skipQuotes.skipQuotes = c.skipQuotes := by
      show skipQuotes.go c.skipQuotes.rest c.skipQuotes.offset c.skipQuotes.quoted = _
      rw [hnil, skipQuotes.go, ← hnil]
    rw [advance_of_none hnext, next, hstay, spelled?, hnil]
    rfl

theorem Reads.advance (h : c.Reads bytes) : c.advance.Reads bytes := by
  cases hnext : c.next with
  | none =>
      rw [advance_of_none hnext]
      exact h.skipQuotes
  | some r =>
      rw [advance_of_some hnext]
      exact (h.advance_item hnext).2.2

/-- The reported offset lies between the places before and after the call. -/
theorem Reads.skipQuotes_le_advance (h : c.Reads bytes) :
    c.skipQuotes.offset ≤ c.advance.offset := by
  cases hnext : c.next with
  | none => rw [advance_of_none hnext]
  | some r =>
      obtain ⟨_, hwidth, _⟩ := h.advance_item hnext
      rw [advance_of_some hnext]
      omega

/-! ## §4. All calls. -/

/-- The calls bring the items in order, and nothing more behind them. -/
theorem Reads.item_iterate (h : c.Reads bytes) (k : Nat) :
    (Cursor.advance^[k] c).next.map Prod.fst = c.items[k]? := by
  induction k generalizing c with
  | zero =>
      rw [items]
      split
      · next hnext => simp [hnext]
      · next hnext => simp [hnext]
  | succ k ih =>
      rw [Function.iterate_succ_apply, ih h.advance]
      cases hnext : c.next with
      | none =>
          have hnil : c.items = [] := by rw [items, hnext]
          have hstays : c.advance.items = [] := by rw [items, (h.advance_end hnext).2]
          rw [hnil, hstays]
          rfl
      | some r =>
          have hcons : c.items = r.1 :: c.advance.items := by
            rw [items, hnext, advance_of_some hnext]
          rw [hcons]
          rfl

/-- Every item takes at least one byte. -/
theorem length_items_le (c : Cursor) : c.items.length ≤ c.rest.length := by
  induction c using Cursor.items.induct with
  | case1 c hnext =>
      rw [items, hnext]
      exact Nat.zero_le _
  | case2 c i after hnext ih =>
      have hlt := length_rest_next hnext
      rw [items, hnext]
      simp only [List.length_cons]
      omega

/-- A text ends behind all of its bytes. -/
theorem Reads.stop_eq (h : c.Reads bytes) : c.stop = bytes.length := by
  induction c using Cursor.items.induct with
  | case1 c hnext =>
      rw [stop, hnext]
      exact (h.advance_end hnext).1
  | case2 c i after hnext ih =>
      rw [stop, hnext]
      exact ih (h.advance_item hnext).2.2

end Cursor

section calls

variable (pattern : String)

theorem reads_cursorAt (k : Nat) : (cursorAt pattern k).Reads (utf8 pattern) := by
  induction k with
  | zero => exact Cursor.reads_start pattern
  | succ k ih =>
      rw [cursorAt_succ]
      exact ih.advance

/-- **The calls bring the items of the text**, one after the other. -/
theorem item_callOf (k : Nat) : (callOf pattern k).item = (itemsOf pattern)[k]? :=
  (Cursor.reads_start pattern).item_iterate k

theorem stop_callOf (k : Nat) : (callOf pattern k).stop = (cursorAt pattern (k + 1)).offset := by
  rw [cursorAt_succ]
  rfl

theorem offset_le_start (k : Nat) : (cursorAt pattern k).offset ≤ (callOf pattern k).start :=
  Cursor.offset_le_skipQuotes _

theorem start_le_stop (k : Nat) : (callOf pattern k).start ≤ (callOf pattern k).stop :=
  (reads_cursorAt pattern k).skipQuotes_le_advance

/-- The lexer never goes back. -/
theorem monotone_offset : Monotone fun k => (cursorAt pattern k).offset := by
  apply monotone_nat_of_le_succ
  intro k
  rw [← stop_callOf]
  exact (offset_le_start pattern k).trans (start_le_stop pattern k)

variable {pattern} {k p : Nat}

theorem exists_next_of_lt (hk : k < (itemsOf pattern).length) :
    ∃ i, (cursorAt pattern k).next = some (i, cursorAt pattern (k + 1)) := by
  have hitem := item_callOf pattern k
  rw [List.getElem?_eq_getElem hk] at hitem
  obtain ⟨⟨i, after⟩, hnext, _⟩ := Option.map_eq_some_iff.1 hitem
  refine ⟨i, ?_⟩
  rw [hnext, cursorAt_succ, Cursor.advance_of_some hnext]

theorem next_eq_none_of_le (hk : (itemsOf pattern).length ≤ k) :
    (cursorAt pattern k).next = none := by
  have hitem := item_callOf pattern k
  rw [List.getElem?_eq_none hk] at hitem
  exact Option.map_eq_none_iff.1 hitem

/-- Every offset that the lexer has passed was passed by some call. -/
theorem exists_call_passing (hp : p < (cursorAt pattern k).offset) :
    ∃ j < k, (cursorAt pattern j).offset ≤ p ∧ p < (cursorAt pattern (j + 1)).offset := by
  induction k with
  | zero => exact absurd hp (Nat.not_lt_zero p)
  | succ k ih =>
      by_cases hk : p < (cursorAt pattern k).offset
      · obtain ⟨j, hj, hpassed⟩ := ih hk
        exact ⟨j, by omega, hpassed⟩
      · exact ⟨k, by omega, by omega, hp⟩

end calls

/-- **What the calls on a text add up to.**  The number of items is that of
the calls that bring one. -/
structure Lossless (pattern : String) : Prop where
  /-- The calls bring the items in order, and then none any more. -/
  items : ∀ k, (callOf pattern k).item = (itemsOf pattern)[k]?
  /-- There are at most as many items as bytes. -/
  length_le : (itemsOf pattern).length ≤ (utf8 pattern).length
  /-- The reported offset is that of the item. -/
  position : ∀ k i, (callOf pattern k).item = some i → i.position = (callOf pattern k).start
  /-- A span is one byte long, or two. -/
  width : ∀ k < (itemsOf pattern).length,
    (callOf pattern k).stop = (callOf pattern k).start + 1 ∨
      (callOf pattern k).stop = (callOf pattern k).start + 2
  /-- Spans lie inside the text. -/
  inside : ∀ k < (itemsOf pattern).length, (callOf pattern k).stop ≤ (utf8 pattern).length
  /-- They come in order and do not overlap. -/
  ordered : ∀ j k, j < k → k < (itemsOf pattern).length →
    (callOf pattern j).stop ≤ (callOf pattern k).start
  /-- A byte outside all spans is a double quote that some call passes over
  before its item or before the end. -/
  skipped : ∀ p < (utf8 pattern).length,
    (∀ k < (itemsOf pattern).length, ¬ (callOf pattern k).Spans p) →
      (utf8 pattern)[p]? = some 0x22 ∧ ∃ k ≤ (itemsOf pattern).length,
        (cursorAt pattern k).offset ≤ p ∧ p < (callOf pattern k).start
  /-- Every byte that a call passes over in this way opens or closes a quoted
  span, and no other one does. -/
  toggled : ∀ k, (cursorAt pattern (k + 1)).quoted = ((cursorAt pattern k).quoted ^^
    decide (((callOf pattern k).start - (cursorAt pattern k).offset) % 2 = 1))
  /-- Behind the items every call reports the end, and stays there. -/
  ended : ∀ k, (itemsOf pattern).length ≤ k → (callOf pattern k).item = none ∧
    (callOf pattern k).start = (utf8 pattern).length ∧
    (callOf pattern k).stop = (utf8 pattern).length
  /-- That is where the text is said to end. -/
  endOf_eq : endOf pattern = (utf8 pattern).length

/-- The end is reported behind all bytes, and the lexer stays there. -/
theorem callOf_end {pattern : String} {k : Nat} (hk : (itemsOf pattern).length ≤ k) :
    (callOf pattern k).item = none ∧ (callOf pattern k).start = (utf8 pattern).length ∧
      (callOf pattern k).stop = (utf8 pattern).length := by
  have hreads := reads_cursorAt pattern k
  have hnone := next_eq_none_of_le hk
  have hstart : (callOf pattern k).start = (utf8 pattern).length := (hreads.advance_end hnone).1
  refine ⟨?_, hstart, ?_⟩
  · show (cursorAt pattern k).next.map Prod.fst = none
    rw [hnone]
    rfl
  · show (cursorAt pattern k).advance.offset = _
    rw [Cursor.advance_of_none hnone]
    exact hstart

/-- A byte outside all spans was passed over before an item, or before the
end. -/
theorem exists_call_skipping {pattern : String} {p : Nat} (hp : p < (utf8 pattern).length)
    (hout : ∀ k < (itemsOf pattern).length, ¬ (callOf pattern k).Spans p) :
    ∃ k ≤ (itemsOf pattern).length,
      (cursorAt pattern k).offset ≤ p ∧ p < (callOf pattern k).start := by
  obtain ⟨_, hstart, hstop⟩ := callOf_end (le_refl (itemsOf pattern).length)
  -- the call behind the items has passed every byte
  obtain ⟨k, hk, hle, hlt⟩ : ∃ k < (itemsOf pattern).length + 1,
      (cursorAt pattern k).offset ≤ p ∧ p < (cursorAt pattern (k + 1)).offset := by
    apply exists_call_passing
    rw [← stop_callOf, hstop]
    exact hp
  refine ⟨k, by omega, hle, ?_⟩
  by_cases hlast : k < (itemsOf pattern).length
  · have hnot := hout k hlast
    rw [← stop_callOf] at hlt
    unfold Call.Spans at hnot
    omega
  · have hend : k = (itemsOf pattern).length := by omega
    rw [hend, hstart]
    exact hp

/-- **The lexer loses nothing and repeats nothing**, whatever the text. -/
theorem lossless (pattern : String) : Lossless pattern where
  items := item_callOf pattern
  length_le := Cursor.length_items_le (Cursor.start pattern)
  position k i hitem := by
    obtain ⟨⟨j, after⟩, hnext, hj⟩ := Option.map_eq_some_iff.1 hitem
    cases hj
    exact ((reads_cursorAt pattern k).advance_item hnext).1
  width k hk := by
    obtain ⟨i, hnext⟩ := exists_next_of_lt hk
    rw [stop_callOf]
    exact ((reads_cursorAt pattern k).advance_item hnext).2.1
  inside k _ := by
    rw [stop_callOf]
    exact (reads_cursorAt pattern (k + 1)).offset_le
  ordered j k hjk _ := by
    rw [stop_callOf]
    exact (monotone_offset pattern hjk).trans (offset_le_start pattern k)
  skipped p hp hout := by
    obtain ⟨k, hk, hle, hlt⟩ := exists_call_skipping hp hout
    exact ⟨(reads_cursorAt pattern k).getElem?_of_lt hle hlt, k, hk, hle, hlt⟩
  toggled k := by
    rw [cursorAt_succ]
    exact Cursor.quoted_advance _
  ended k hk := callOf_end hk
  endOf_eq := (Cursor.reads_start pattern).stop_eq

end LineScan
