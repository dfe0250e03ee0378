/-
  LineScan.Fault
  ──────────────
  **WHAT CAN GO WRONG INSIDE A STRUCTURE.**

  A pattern that does not read is a `SyntaxError`, and its author is told so.
  A `Fault` is something else: a caller used a bit set, an arena slot or a
  state number that does not exist.  Each constructor names one such misuse
  and carries the numbers involved; `Fault.message` is the only place where
  it is put into words.

  No pattern reaches a fault: the stages hand each other numbers that are in
  range.  Faults are for callers who drive a structure by hand.
-/

namespace LineScan

/-- A misuse of a structure by number. -/
inductive Fault where
  /-- `member` was put into a set that only holds numbers below `capacity`. -/
  | outsideSet (member capacity : Nat)
  /-- The node in `slot` was asked for after the slot had been released. -/
  | released (slot : Nat)
  /-- The node in `slot` was to be merged into another one after the slot
  had been released. -/
  | splicedFromReleased (slot : Nat)
  /-- A finished automaton would refer to `slot`, which holds no node. -/
  | danglingReference (slot : Nat)
  /-- Position `index` was asked for in a list of `length` entries. -/
  | outOfRange (length index : Nat)
deriving DecidableEq, Repr

/-- The wording of a fault. -/
def Fault.message : Fault → String
  | .outsideSet member capacity =>
      toString member ++ " is outside a set of capacity " ++ toString capacity
  | .released slot => "NFA slot " ++ toString slot ++ " was released"
  | .splicedFromReleased slot => "splicing from released NFA slot " ++ toString slot
  | .danglingReference slot => "NFA edge points at released slot " ++ toString slot
  | .outOfRange length index =>
      "index out of bounds: the len is " ++ toString length ++
        " but the index is " ++ toString index

end LineScan
