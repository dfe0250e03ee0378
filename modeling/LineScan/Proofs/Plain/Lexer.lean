/-
  LineScan.Proofs.Plain.Lexer
  ───────────────────────────
  **READING BYTES BY THEIR POSITIONS.**

  A cursor that keeps a position instead of the bytes ahead.  It peeks at the
  bytes before it moves, and looks the byte behind a backslash up once it has
  moved past it.  That byte is there because it has been peeked at.
-/
import LineScan.Pattern.Lexer
import LineScan.Proofs.Plain.Access

namespace LineScan

/-- A place in a pattern. -/
structure PlainCursor where
  /-- The number of bytes behind. -/
  position : Nat
  /-- Whether the place is inside a quoted span. -/
  quoted : Bool

namespace PlainCursor

variable (input : List UInt8)

/-- The byte so many places ahead, if there is one. -/
def peek (c : PlainCursor) (ahead : Nat) : Option UInt8 := input[c.position + ahead]?

theorem drop_of_peek {c : PlainCursor} {b : UInt8} (h : c.peek input 0 = some b) :
    input.drop c.position = b :: input.drop (c.position + 1) := by
  have hlt : c.position < input.length := (List.getElem?_eq_some_iff.1 h).1
  have hb : input[c.position] = b := (List.getElem?_eq_some_iff.1 h).2
  rw [List.drop_eq_getElem_cons hlt, hb]

theorem drop_of_peek_none {c : PlainCursor} (h : c.peek input 0 = none) :
    input.drop c.position = [] :=
  List.drop_eq_nil_of_le (List.getElem?_eq_none_iff.1 h)

/-- Passes over double quotes, each of which opens or closes a span. -/
def skipQuotes (c : PlainCursor) : PlainCursor :=
  if _h : c.peek input 0 = some 0x22 then skipQuotes ⟨c.position + 1, !c.quoted⟩ else c
termination_by input.length - c.position
decreasing_by
  have hlt : c.position < input.length := (List.getElem?_eq_some_iff.1 _h).1
  exact Nat.sub_lt_sub_left hlt (Nat.lt_succ_self _)

/-- Decodes the byte at the cursor, which is not a quote that opens or closes
a span. -/
def spelled? (c : PlainCursor) : Except Fault (Option (Spelled × PlainCursor)) :=
  match c.peek input 0 with
  | none => .ok none
  | some b =>
      if c.quoted then
        if b = 0x5c ∧ c.peek input 1 = some 0x22 then
          .ok (some (⟨0x22, false⟩, ⟨c.position + 2, c.quoted⟩))
        else .ok (some (⟨b, false⟩, ⟨c.position + 1, c.quoted⟩))
      else if b = 0x5c ∧ (c.peek input 1).isSome then do
        let after : PlainCursor := ⟨c.position + 2, c.quoted⟩
        let b' ← lookUp? input (after.position - 1)
        return some (⟨Cursor.unescape b', false⟩, after)
      else .ok (some (⟨b, true⟩, ⟨c.position + 1, c.quoted⟩))

/-- Reads the next item, or nothing at the end of the pattern. -/
def next? (c : PlainCursor) : Except Fault (Option (Item × PlainCursor)) := do
  match ← (c.skipQuotes input).spelled? input with
  | none => return none
  | some (s, after) => return some (Cursor.itemOf s (c.skipQuotes input).position, after)

/-- The same place with the bytes ahead. -/
def cursor (c : PlainCursor) : Cursor := ⟨input.drop c.position, c.position, c.quoted⟩

theorem skipQuotes_cursor (c : PlainCursor) :
    (c.cursor input).skipQuotes = (c.skipQuotes input).cursor input := by
  fun_induction skipQuotes input c with
  | case1 c h ih =>
      rw [← ih]
      unfold Cursor.skipQuotes cursor
      rw [drop_of_peek input h, Cursor.skipQuotes.go, if_pos rfl]
  | case2 c h =>
      unfold Cursor.skipQuotes cursor
      cases hpeek : c.peek input 0 with
      | none =>
          rw [drop_of_peek_none input hpeek]
          rfl
      | some b =>
          rw [hpeek, Option.some.injEq] at h
          rw [drop_of_peek input hpeek, Cursor.skipQuotes.go, if_neg h]

/-- **Decoding a byte by its position never fails.** -/
theorem exists_spelled? (c : PlainCursor) :
    ∃ r, c.spelled? input = .ok r ∧
      (c.cursor input).spelled? = r.map fun (s, after) => (s, after.cursor input) := by
  obtain ⟨position, quoted⟩ := c
  let second : PlainCursor := ⟨position + 1, quoted⟩
  have hsecond : peek input ⟨position, quoted⟩ 1 = second.peek input 0 := rfl
  cases hpeek : peek input ⟨position, quoted⟩ 0 with
  | none =>
      refine ⟨none, ?_, ?_⟩
      · simp only [spelled?, hpeek]
      · simp only [cursor, Cursor.spelled?, drop_of_peek_none input hpeek, Option.map_none]
  | some b =>
      have hdrop : input.drop position = b :: input.drop (position + 1) := drop_of_peek input hpeek
      cases hpeek' : second.peek input 0 with
      | none =>
          -- the last byte stands for itself, whatever it is
          have hdrop' : input.drop (position + 1) = [] := drop_of_peek_none input hpeek'
          refine ⟨some (⟨b, !quoted⟩, ⟨position + 1, quoted⟩), ?_, ?_⟩
          · cases quoted <;> simp [spelled?, hpeek, hsecond, hpeek']
          · simp [cursor, Cursor.spelled?, hdrop, hdrop']
      | some b' =>
          have hdrop' : input.drop (position + 1) = b' :: input.drop (position + 2) :=
            drop_of_peek input hpeek'
          have hlookUp : lookUp? input (position + 2 - 1) = .ok b' := lookUp?_of_getElem? hpeek'
          cases quoted with
          | false =>
              by_cases hb : b = 0x5c
              · refine ⟨some (⟨Cursor.unescape b', false⟩, ⟨position + 2, false⟩), ?_, ?_⟩
                · simp only [spelled?, hpeek, hsecond, hpeek', hb, hlookUp, ok_bind]
                  rfl
                · simp [cursor, Cursor.spelled?, hdrop, hdrop', hb]
              · refine ⟨some (⟨b, true⟩, ⟨position + 1, false⟩), ?_, ?_⟩
                · simp [spelled?, hpeek, hb]
                · simp [cursor, Cursor.spelled?, hdrop, hdrop', hb]
          | true =>
              by_cases hb : b = 0x5c ∧ b' = 0x22
              · obtain ⟨hb, hb'⟩ := hb
                refine ⟨some (⟨0x22, false⟩, ⟨position + 2, true⟩), ?_, ?_⟩
                · simp [spelled?, hpeek, hsecond, hpeek', hb, hb']
                · simp [cursor, Cursor.spelled?, hdrop, hdrop', hb, hb']
              · refine ⟨some (⟨b, false⟩, ⟨position + 1, true⟩), ?_, ?_⟩
                · simp [spelled?, hpeek, hsecond, hpeek', hb]
                · simp [cursor, Cursor.spelled?, hdrop, hdrop', hb]

/-- **Reading an item by its position never fails.** -/
theorem exists_next? (c : PlainCursor) :
    ∃ r, c.next? input = .ok r ∧
      (c.cursor input).next = r.map fun (i, after) => (i, after.cursor input) := by
  obtain ⟨r, hr, hspelled⟩ := exists_spelled? input (c.skipQuotes input)
  unfold next? Cursor.next
  rw [hr, ok_bind, skipQuotes_cursor, hspelled]
  cases r with
  | none => exact ⟨none, rfl, rfl⟩
  | some r => exact ⟨some _, rfl, rfl⟩

theorem position_lt_of_next? {c after : PlainCursor} {i : Item}
    (h : c.next? input = .ok (some (i, after))) :
    input.length - after.position < input.length - c.position := by
  obtain ⟨r, hr, hnext⟩ := exists_next? input c
  rw [h] at hr
  cases hr
  have hlt := Cursor.length_rest_next hnext
  rwa [cursor, cursor, List.length_drop, List.length_drop] at hlt

/-- The items from the cursor to the end, and the position of the end. -/
def items? (c : PlainCursor) : Except Fault (List Item × Nat) :=
  match _h : c.next? input with
  | .error f => .error f
  | .ok none => .ok ([], (c.skipQuotes input).position)
  | .ok (some (i, after)) => do
      let (items, stop) ← after.items?
      return (i :: items, stop)
termination_by input.length - c.position
decreasing_by exact position_lt_of_next? input _h

theorem items?_cursor (c : PlainCursor) :
    c.items? input = .ok ((c.cursor input).items, (c.cursor input).stop) := by
  fun_induction items? input c with
  | case1 c f h =>
      obtain ⟨r, hr, _⟩ := exists_next? input c
      rw [h] at hr
      cases hr
  | case2 c h =>
      obtain ⟨r, hr, hnext⟩ := exists_next? input c
      rw [h] at hr
      cases hr
      have hnone : (c.cursor input).next = none := hnext
      rw [Cursor.items, Cursor.stop, hnone, skipQuotes_cursor]
      rfl
  | case3 c i after h ih =>
      obtain ⟨r, hr, hnext⟩ := exists_next? input c
      rw [h] at hr
      cases hr
      have hsome : (c.cursor input).next = some (i, after.cursor input) := hnext
      rw [Cursor.items, Cursor.stop, hsome, ih, ok_bind]
      rfl

end PlainCursor

/-- **The items of a pattern, read by their positions.** -/
theorem items?_start (pattern : String) :
    PlainCursor.items? (utf8 pattern) ⟨0, false⟩ = .ok (itemsOf pattern, endOf pattern) :=
  PlainCursor.items?_cursor (utf8 pattern) ⟨0, false⟩

end LineScan
