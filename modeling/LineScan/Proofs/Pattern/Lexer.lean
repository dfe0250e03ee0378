/-
  LineScan.Proofs.Pattern.Lexer
  ─────────────────────────────
  **WHAT THE TOKENS OF A PATTERN ARE LIKE.**

  A token is a literal, or its kind is that of its symbol written plainly
  (`Token.Proper`).  An operator therefore always stands for its own byte.
-/
import LineScan.Pattern.Lexer

namespace LineScan

/-- A token is a literal, or means what its symbol means when it is written
plainly. -/
def Token.Proper (t : Token) : Prop := t.kind = .literal ∨ t.kind = Kind.ofPlain t.symbol.toByte

theorem Kind.eq_dash_of_ofPlain :
    ∀ a : Symbol, Kind.ofPlain a.toByte = .dash → a = Symbol.dash := by
  decide +kernel

theorem Token.Proper.symbol_eq_dash {t : Token} (ht : t.Proper) (h : t.kind = .dash) :
    t.symbol = Symbol.dash := by
  rcases ht with hk | hk
  · rw [h] at hk
    cases hk
  · exact Kind.eq_dash_of_ofPlain t.symbol (hk.symm.trans h)

namespace Cursor

theorem proper_of_itemOf {s : Spelled} {position : Nat} {t : Token}
    (h : itemOf s position = .token t) : t.Proper := by
  unfold itemOf at h
  cases ha : Symbol.ofByte? s.byte with
  | none =>
      rw [ha] at h
      cases h
  | some a =>
      rw [ha] at h
      cases h
      rw [Symbol.ofByte?_eq_some_iff] at ha
      unfold Token.Proper
      rw [ha]
      cases s.plain with
      | true => exact .inr rfl
      | false => exact .inl rfl

/-- **The tokens of a pattern** are proper. -/
theorem proper_of_mem_items (c : Cursor) {t : Token} (h : Item.token t ∈ c.items) :
    t.Proper := by
  induction c using Cursor.items.induct with
  | case1 c hnext =>
      rw [items, hnext] at h
      cases h
  | case2 c i after hnext ih =>
      rw [items, hnext] at h
      rcases List.mem_cons.1 h with hi | hi
      · rw [next, Option.map_eq_some_iff] at hnext
        obtain ⟨⟨s, after'⟩, _, he⟩ := hnext
        cases he
        exact proper_of_itemOf hi.symm
      · exact ih hi

end Cursor

end LineScan
