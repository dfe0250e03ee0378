/-
  LineScan.Anchor
  ───────────────
  **LINE ANCHORS.**

  A rule may be tied to the beginning of a line, to its end, or to both.  The
  node that accepts for a rule records which.
-/

namespace LineScan

/-- Which ends of a line a rule is tied to. -/
structure Anchor where
  /-- Tied to the beginning of a line. -/
  bol : Bool
  /-- Tied to the end of a line. -/
  eol : Bool
deriving DecidableEq, Repr

namespace Anchor

/-- Tied to neither end. -/
def none : Anchor := ⟨false, false⟩

/-- Tied to whatever one of the two is tied to. -/
def union (a b : Anchor) : Anchor := ⟨a.bol || b.bol, a.eol || b.eol⟩

/-- Tied to neither end? -/
def isEmpty (a : Anchor) : Bool := !a.bol && !a.eol

/-- The anchor as a number: one for the beginning, two for the end. -/
def bits (a : Anchor) : Nat := (if a.bol then 1 else 0) + (if a.eol then 2 else 0)

/-- The anchor of a number; bits above the second mean nothing. -/
def ofBits (n : Nat) : Anchor := ⟨n.testBit 0, n.testBit 1⟩

@[simp] theorem ofBits_bits (a : Anchor) : ofBits a.bits = a := by
  rcases a with ⟨_ | _, _ | _⟩ <;> rfl

/-- The flags that an anchor contains, by name; both together also have a
name of their own. -/
def text : Anchor → String
  | ⟨false, false⟩ => "NONE"
  | ⟨true, false⟩ => "BOL"
  | ⟨false, true⟩ => "EOL"
  | ⟨true, true⟩ => "BOL | EOL | BOTH"

end Anchor

end LineScan
