/-
  LineScan.BitSet
  ───────────────
  **SETS OF SMALL NUMBERS.**

  A `BitSet capacity` holds numbers below `capacity`, one bit for each.  Both
  kinds of set in this library are bit sets: the symbols of a character class
  (capacity 127) and the automaton nodes that one state of a subset
  construction stands for (capacity: the number of nodes).

  The view of a set is `contains : BitSet c → Nat → Bool`.  Every operation
  states what it does to that view, and `BitSet.ext` says that the view
  determines the set.  `same` compares sets of different capacities by
  counting; it is what "equal" means for callers who mix capacities.

  Operations come in two forms.  `insert` takes a number that is known to fit
  (`Fin c`) and always succeeds; `insert?` takes any number and may be a
  `Fault`.
-/
import LineScan.Fault

namespace LineScan

/-- A set of numbers below `capacity`. -/
structure BitSet (capacity : Nat) where
  /-- Bit `k` is set when `k` is a member. -/
  bits : BitVec capacity
deriving DecidableEq

namespace BitSet

variable {c d : Nat}

/-! ## §1. Membership. -/

/-- The set without members. -/
def empty (c : Nat) : BitSet c := ⟨0#c⟩

/-- Whether `k` is a member.  Numbers at or above the capacity never are. -/
def contains (s : BitSet c) (k : Nat) : Bool := s.bits.getLsbD k

@[simp] theorem contains_empty (k : Nat) : (empty c).contains k = false := by
  simp [empty, contains]

/-- Members lie below the capacity. -/
theorem lt_of_contains {s : BitSet c} {k : Nat} (h : s.contains k = true) : k < c := by
  exact BitVec.lt_of_getLsbD h

/-- A set is determined by its members. -/
theorem ext {s t : BitSet c} (h : ∀ i : Fin c, s.contains i = t.contains i) : s = t := by
  cases s; cases t
  congr 1
  exact BitVec.eq_of_getLsbD_eq fun i hi => h ⟨i, hi⟩

/-! ## §2. Insertion. -/

/-- Adds one number. -/
def insert (s : BitSet c) (i : Fin c) : BitSet c := ⟨s.bits ||| BitVec.twoPow c i⟩

theorem contains_insert (s : BitSet c) (i : Fin c) (k : Nat) :
    (s.insert i).contains k = (s.contains k || decide (k = i)) := by
  have hi := i.isLt
  by_cases hk : k = i
  · subst hk; simp [insert, contains]
  · simp [insert, contains, BitVec.getLsbD_twoPow, hk, Ne.symm hk]

/-- Adds every number of a list. -/
def insertAll (s : BitSet c) (members : List (Fin c)) : BitSet c :=
  members.foldl insert s

theorem contains_insertAll (s : BitSet c) (members : List (Fin c)) (k : Nat) :
    (s.insertAll members).contains k = (s.contains k || members.any fun i => decide (k = i)) := by
  induction members generalizing s with
  | nil => simp [insertAll]
  | cons i rest ih =>
      have := ih (s.insert i)
      simp only [insertAll, List.foldl_cons] at this ⊢
      simp [this, contains_insert, Bool.or_assoc]

/-- The set of a list of numbers. -/
def ofList (members : List (Fin c)) : BitSet c := (empty c).insertAll members

theorem contains_ofList (members : List (Fin c)) (k : Nat) :
    (ofList members).contains k = members.any fun i => decide (k = i) := by
  rw [ofList, contains_insertAll, contains_empty, Bool.false_or]

/-- Adds the numbers of the inclusive range `low..high` that fit; nothing
when `high < low`. -/
def insertRange (s : BitSet c) (low high : Nat) : BitSet c :=
  s.insertAll ((List.finRange c).filter fun i => decide (low ≤ i.val ∧ i.val ≤ high))

theorem contains_insertRange (s : BitSet c) (low high k : Nat) :
    (s.insertRange low high).contains k =
      (s.contains k || decide (low ≤ k ∧ k ≤ high ∧ k < c)) := by
  rw [insertRange, contains_insertAll]
  congr 1
  rw [Bool.eq_iff_iff]
  simp only [List.any_eq_true, List.mem_filter, List.mem_finRange, true_and, decide_eq_true_eq]
  constructor
  · rintro ⟨i, ⟨h₁, h₂⟩, rfl⟩
    exact ⟨h₁, h₂, i.isLt⟩
  · rintro ⟨h₁, h₂, h₃⟩
    exact ⟨⟨k, h₃⟩, ⟨h₁, h₂⟩, rfl⟩

/-! ## §3. Members and counting. -/

/-- The members, ascending. -/
def members (s : BitSet c) : List (Fin c) := (List.finRange c).filter fun i => s.contains i

@[simp] theorem mem_members {s : BitSet c} {i : Fin c} : i ∈ s.members ↔ s.contains i = true := by
  simp [members]

/-- The number of members. -/
def count (s : BitSet c) : Nat := s.members.length

/-- Whether the set has no member. -/
def isEmpty (s : BitSet c) : Bool := s.members.isEmpty

/-- The number of members of `s` that `t` has too. -/
def interCount (s : BitSet c) (t : BitSet d) : Nat :=
  (s.members.filter fun i : Fin c => t.contains i.val).length

/-- Whether two sets have the same members, whatever their capacities: as
many on both sides, and all of `s` in `t`. -/
def same (s : BitSet c) (t : BitSet d) : Bool :=
  s.count == t.count && s.interCount t == s.count

/-- The numbers below the capacity that are not members.  Insertions shrink
this list, which is what ends every search over a set. -/
def absent (s : BitSet c) : List (Fin c) := (List.finRange c).filter fun i => !s.contains i

theorem length_absent_insert_lt {s : BitSet c} {i : Fin c} (h : s.contains i = false) :
    (s.insert i).absent.length < s.absent.length := by
  have hsub : (s.insert i).absent = s.absent.filter fun j => decide (j ≠ i) := by
    simp only [absent, List.filter_filter]
    apply List.filter_congr
    intro j _
    rw [contains_insert]
    by_cases hj : j = i
    · simp [hj]
    · have : (j : Nat) ≠ i := fun e => hj (Fin.ext e)
      simp [hj, this]
  -- what is left is a filter of what was absent, and it drops `i`
  rw [hsub, List.length_filter_lt_length_iff_exists]
  exact ⟨i, by simp [absent, h], by simp⟩

/-! ## §4. Operations that may be refused. -/

/-- Adds any number, or reports that it does not fit. -/
def insert? (s : BitSet c) (k : Nat) : Except Fault (BitSet c) :=
  if h : k < c then .ok (s.insert ⟨k, h⟩) else .error (.outsideSet k c)

/-- Adds any numbers in order, up to the first that does not fit. -/
def insertAll? (s : BitSet c) (numbers : List Nat) : Except Fault (BitSet c) :=
  numbers.foldlM insert? s

/-- The set of a list of numbers, or the first of them that does not fit. -/
def ofList? (c : Nat) (numbers : List Nat) : Except Fault (BitSet c) :=
  (empty c).insertAll? numbers

/-- Adds the inclusive range `low..high`, or reports its least number that
does not fit.  An empty range is never refused. -/
def insertRange? (s : BitSet c) (low high : Nat) : Except Fault (BitSet c) :=
  -- the first number of the range that does not fit is `low` or the capacity
  if low ≤ high ∧ c ≤ high then .error (.outsideSet (max low c) c)
  else .ok (s.insertRange low high)

/-- Adds the members of `t`, or reports the least of them that does not
fit. -/
def union? (s : BitSet c) (t : BitSet d) : Except Fault (BitSet c) :=
  s.insertAll? (t.members.map Fin.val)

/-- Adds the members of a set of the same capacity. -/
def union (s t : BitSet c) : BitSet c := ⟨s.bits ||| t.bits⟩

@[simp] theorem contains_union (s t : BitSet c) (k : Nat) :
    (s.union t).contains k = (s.contains k || t.contains k) := by
  simp [union, contains]

/-! ## §5. Text. -/

/-- The members between braces, as the log and the debug views write them. -/
def text (s : BitSet c) : String :=
  "\x7b" ++ ", ".intercalate (s.members.map fun i => toString i.val) ++ "\x7d"

end BitSet

end LineScan
