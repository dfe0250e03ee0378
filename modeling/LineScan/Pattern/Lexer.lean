/-
  LineScan.Pattern.Lexer
  ──────────────────────
  **FROM BYTES TO ITEMS.**

  A double quote opens or closes a quoted span and is no item itself.
  Outside quotes a backslash takes the next byte literally, except that
  `\t`, `\n` and `\r` are the control characters of those names; a backslash
  at the very end stands for itself.  Inside quotes every byte stands for
  itself, and only `\"` is shorter than it looks: it is a double quote.

  A `Cursor` is a place in a pattern.  `Cursor.next` reads one item and moves
  on, `Cursor.items` reads all of them.  The recursion of the latter ends
  because every item takes at least one byte (`length_rest_next`).
-/
import LineScan.Pattern.SyntaxError
import LineScan.Pattern.Token

namespace LineScan

/-! ## §1. One item. -/

/-- A place in a pattern. -/
structure Cursor where
  /-- The bytes ahead. -/
  rest : List UInt8
  /-- The number of bytes behind. -/
  offset : Nat
  /-- Whether the place is inside a quoted span. -/
  quoted : Bool
deriving DecidableEq, Repr

/-- A byte read from a pattern, after its spelling has been decoded. -/
structure Spelled where
  /-- The byte that is meant. -/
  byte : UInt8
  /-- Whether it was written as itself, outside quotes, so that it may be an
  operator. -/
  plain : Bool
deriving DecidableEq, Repr

namespace Cursor

/-- The beginning of a pattern. -/
def start (pattern : String) : Cursor := ⟨utf8 pattern, 0, false⟩

/-- Passes over double quotes, each of which opens or closes a span. -/
def skipQuotes (c : Cursor) : Cursor := go c.rest c.offset c.quoted
where
  /-- Passes over the double quotes at the head of the bytes ahead. -/
  go : List UInt8 → Nat → Bool → Cursor
    | [], offset, quoted => ⟨[], offset, quoted⟩
    | b :: rest, offset, quoted =>
        if b = 0x22 then go rest (offset + 1) (!quoted) else ⟨b :: rest, offset, quoted⟩

/-- The byte that a backslash and the given byte stand for outside quotes. -/
def unescape (b : UInt8) : UInt8 :=
  if b = 0x74 then 9 else if b = 0x6e then 10 else if b = 0x72 then 13 else b

/-- Decodes the byte at the cursor, which is not a quote that opens or closes
a span. -/
def spelled? (c : Cursor) : Option (Spelled × Cursor) :=
  match c.rest with
  | [] => none
  -- a backslash with nothing behind it stands for itself
  | [b] => some (⟨b, !c.quoted⟩, ⟨[], c.offset + 1, c.quoted⟩)
  | b :: b' :: rest =>
      if b = 0x5c ∧ c.quoted = false then
        some (⟨unescape b', false⟩, ⟨rest, c.offset + 2, c.quoted⟩)
      -- between quotes only `\"` is an escape
      else if b = 0x5c ∧ b' = 0x22 then
        some (⟨b', false⟩, ⟨rest, c.offset + 2, c.quoted⟩)
      else some (⟨b, !c.quoted⟩, ⟨b' :: rest, c.offset + 1, c.quoted⟩)

/-- The item that a decoded byte makes when its spelling starts at
`position`. -/
def itemOf (s : Spelled) (position : Nat) : Item :=
  match Symbol.ofByte? s.byte with
  | some a => .token ⟨if s.plain then Kind.ofPlain s.byte else .literal, a, position⟩
  | none => .foreign s.byte position

/-- **Reads the next item**, or nothing at the end of the pattern. -/
def next (c : Cursor) : Option (Item × Cursor) :=
  (c.skipQuotes.spelled?).map fun (s, after) => (itemOf s c.skipQuotes.offset, after)

theorem length_rest_skipQuotes_go (l : List UInt8) (offset : Nat) (quoted : Bool) :
    (skipQuotes.go l offset quoted).rest.length ≤ l.length := by
  induction l generalizing offset quoted with
  | nil => simp [skipQuotes.go]
  | cons b rest ih =>
      unfold skipQuotes.go
      split
      · exact Nat.le_succ_of_le (ih _ _)
      · exact Nat.le_refl _

theorem length_rest_spelled {c after : Cursor} {s : Spelled}
    (h : c.spelled? = some (s, after)) : after.rest.length < c.rest.length := by
  unfold spelled? at h
  split at h
  · cases h
  · next e =>
      cases h
      rw [e]
      exact Nat.lt_succ_self _
  · next e =>
      -- one byte is taken, or two where a backslash pairs up with the next
      rw [e]
      split at h
      · cases h
        exact Nat.lt_succ_of_lt (Nat.lt_succ_self _)
      · split at h
        · cases h
          exact Nat.lt_succ_of_lt (Nat.lt_succ_self _)
        · cases h
          exact Nat.lt_succ_self _

/-- Every item takes at least one byte. -/
theorem length_rest_next {c after : Cursor} {i : Item} (h : c.next = some (i, after)) :
    after.rest.length < c.rest.length := by
  simp only [next, Option.map_eq_some_iff] at h
  obtain ⟨⟨s, after'⟩, hs, he⟩ := h
  cases he
  exact Nat.lt_of_lt_of_le (length_rest_spelled hs) (length_rest_skipQuotes_go _ _ _)

/-! ## §2. All items. -/

/-- **The items from the cursor to the end**, in order. -/
def items (c : Cursor) : List Item :=
  match _h : c.next with
  | none => []
  | some (i, after) => i :: after.items
termination_by c.rest.length
decreasing_by exact length_rest_next _h

/-- **The offset at which the cursor finds nothing more to read.** -/
def stop (c : Cursor) : Nat :=
  match _h : c.next with
  | none => c.skipQuotes.offset
  | some (_, after) => after.stop
termination_by c.rest.length
decreasing_by exact length_rest_next _h

end Cursor

/-- The items of a pattern. -/
def itemsOf (pattern : String) : List Item := (Cursor.start pattern).items

/-- The offset at which a pattern ends. -/
def endOf (pattern : String) : Nat := (Cursor.start pattern).stop

/-! ## §3. The current token, step by step. -/

/-- What a reader who takes one item at a time has in view. -/
structure View where
  /-- The meaning of the current token; nothing before the first and after
  the last. -/
  kind : Option Kind
  /-- The byte last read; zero before the first and after the last. -/
  byte : UInt8
  /-- Where its spelling starts. -/
  position : Nat
deriving DecidableEq, Repr

namespace View

/-- Before anything has been read. -/
def fresh : View := ⟨none, 0, 0⟩

/-- After everything has been read. -/
def ended (stop : Nat) : View := ⟨none, 0, stop⟩

/-- The view after one more item.  A foreign byte is seen, but the meaning of
the token before it stays. -/
def after (v : View) : Item → View
  | .token t => ⟨some t.kind, t.symbol.toByte, t.position⟩
  | .foreign b p => ⟨v.kind, b, p⟩

/-- The complaint about an item, if there is one. -/
def complaint : Item → Option SyntaxError
  | .token _ => none
  | .foreign b p => some (.byteOutOfRange b p)

/-- The views after each of the items in turn, with the complaints. -/
def along (v : View) : List Item → List (View × Option SyntaxError)
  | [] => []
  | i :: rest => (v.after i, complaint i) :: (v.after i).along rest

end View

end LineScan
