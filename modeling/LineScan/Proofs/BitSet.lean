/-
  LineScan.Proofs.BitSet
  ──────────────────────
  **SETS ARE THE SAME WHEN THEIR MEMBERS ARE.**

  `same` never goes through two sets side by side: it compares the numbers of
  members, and counts the members that both sets have.  That is enough.  When
  all members of one set are shared, the shared ones are as many as the other
  set has, so nothing is left over there (`same_iff_contains`).  Capacities do
  not occur in this, and `same` is an equivalence between sets of all
  capacities.

  A `Recipe` says how a set has been made: the operations on it, one after the
  other, and for a union also those on the other set.  The set keeps nothing
  of its recipe but the numbers that were added (`contains_of_build?`), so
  `same` sees neither their order nor the capacities.
-/
import LineScan.Proofs.Plain.Access
import Mathlib.Data.List.FinRange
import Mathlib.Data.List.Perm.Subperm

namespace LineScan

namespace BitSet

variable {c d : Nat}

/-! ## §1. Counting shared members. -/

/-- The members as numbers, ascending. -/
def numbers (s : BitSet c) : List Nat := s.members.map Fin.val

theorem mem_numbers {s : BitSet c} {m : Nat} : m ∈ s.numbers ↔ s.contains m = true := by
  unfold numbers
  rw [List.mem_map]
  constructor
  · rintro ⟨i, hi, rfl⟩
    exact mem_members.1 hi
  · intro h
    exact ⟨⟨m, lt_of_contains h⟩, mem_members.2 h, rfl⟩

theorem nodup_members (s : BitSet c) : s.members.Nodup := (List.nodup_finRange c).filter _

theorem nodup_numbers (s : BitSet c) : s.numbers.Nodup := s.nodup_members.map Fin.val_injective

theorem length_numbers (s : BitSet c) : s.numbers.length = s.count := List.length_map _

/-- As many members are shared as there are exactly if all of them are. -/
theorem interCount_eq_count_iff {s : BitSet c} {t : BitSet d} :
    s.interCount t = s.count ↔ s.numbers ⊆ t.numbers := by
  unfold interCount count
  rw [List.length_filter_eq_length_iff]
  constructor
  · intro h m hm
    obtain ⟨i, hi, rfl⟩ := List.mem_map.1 hm
    exact mem_numbers.2 (h i hi)
  · intro h i hi
    exact mem_numbers.1 (h (List.mem_map_of_mem hi))

/-- **Counting decides whether two sets have the same members**, whatever
their capacities. -/
theorem same_iff_contains {s : BitSet c} {t : BitSet d} :
    s.same t = true ↔ ∀ m, s.contains m = t.contains m := by
  have hsame : s.same t = true ↔
      s.numbers.length = t.numbers.length ∧ s.numbers ⊆ t.numbers := by
    unfold same
    rw [Bool.and_eq_true, beq_iff_eq, beq_iff_eq, interCount_eq_count_iff, length_numbers,
      length_numbers]
  rw [hsame]
  constructor
  · rintro ⟨hlength, hsub⟩ m
    -- a list without repetitions, inside another one of its length, is all of it
    have hperm : s.numbers.Perm t.numbers :=
      (s.nodup_numbers.subperm hsub).perm_of_length_le (Nat.le_of_eq hlength.symm)
    exact Bool.eq_iff_iff.2 (by rw [← mem_numbers, ← mem_numbers, hperm.mem_iff])
  · intro h
    have hmem : ∀ m, m ∈ s.numbers ↔ m ∈ t.numbers := fun m => by
      rw [mem_numbers, mem_numbers, h m]
    have hperm := (List.perm_ext_iff_of_nodup s.nodup_numbers t.nodup_numbers).2 hmem
    exact ⟨hperm.length_eq, hperm.subset⟩

/-! ## §2. Sets of all capacities. -/

/-- A set of some capacity. -/
abbrev Any : Type := (c : Nat) × BitSet c

/-- Whether two sets of any capacities have the same members. -/
def Any.Same (a b : Any) : Prop := a.2.same b.2 = true

/-- **Having the same members is an equivalence.** -/
theorem Any.same_equivalence : Equivalence Any.Same where
  refl _ := same_iff_contains.2 fun _ => rfl
  symm h := same_iff_contains.2 fun m => (same_iff_contains.1 h m).symm
  trans h h' := same_iff_contains.2 fun m =>
    (same_iff_contains.1 h m).trans (same_iff_contains.1 h' m)

/-! ## §3. What an operation adds. -/

theorem contains_of_insert? {s t : BitSet c} {k : Nat} (h : s.insert? k = .ok t) (m : Nat) :
    t.contains m = true ↔ s.contains m = true ∨ m = k := by
  unfold insert? at h
  split at h
  · cases h
    rw [contains_insert, Bool.or_eq_true, decide_eq_true_eq]
  · cases h

theorem contains_of_insertAll? {s t : BitSet c} {numbers : List Nat}
    (h : s.insertAll? numbers = .ok t) (m : Nat) :
    t.contains m = true ↔ s.contains m = true ∨ m ∈ numbers := by
  induction numbers generalizing s with
  | nil =>
      cases h
      simp
  | cons k numbers ih =>
      unfold insertAll? at h
      rw [List.foldlM_cons] at h
      obtain ⟨s', hk, h⟩ := exists_of_bind_eq_ok h
      rw [ih h, contains_of_insert? hk, List.mem_cons, or_assoc]

theorem contains_of_insertRange? {s t : BitSet c} {low high : Nat}
    (h : s.insertRange? low high = .ok t) (m : Nat) :
    t.contains m = true ↔ s.contains m = true ∨ low ≤ m ∧ m ≤ high := by
  unfold insertRange? at h
  split at h
  · cases h
  · cases h
    rw [contains_insertRange, Bool.or_eq_true, decide_eq_true_eq]
    -- a number of a range that is not refused lies below the capacity
    have hfits : low ≤ m → m ≤ high → m < c := fun _ _ => by omega
    exact or_congr_right ⟨fun ⟨h₁, h₂, _⟩ => ⟨h₁, h₂⟩, fun ⟨h₁, h₂⟩ => ⟨h₁, h₂, hfits h₁ h₂⟩⟩

theorem contains_of_union? {s t : BitSet c} {other : BitSet d} (h : s.union? other = .ok t)
    (m : Nat) : t.contains m = true ↔ s.contains m = true ∨ other.contains m = true := by
  rw [contains_of_insertAll? h, ← mem_numbers (s := other)]
  rfl

/-! ## §4. Recipes. -/

/-- **How a set is made.** -/
inductive Recipe where
  /-- An empty set of this capacity. -/
  | new (capacity : Nat)
  /-- An empty set that nothing fits into. -/
  | standard
  /-- A set of this capacity, with the numbers of a list. -/
  | ofList (capacity : Nat) (numbers : List Nat)
  /-- A copy of a set. -/
  | copy (r : Recipe)
  /-- A set, and then one more number. -/
  | insert (r : Recipe) (k : Nat)
  /-- A set, and then the numbers of an inclusive range. -/
  | insertRange (r : Recipe) (low high : Nat)
  /-- A set, and then the members of another one. -/
  | union (r other : Recipe)

namespace Recipe

/-- **Makes a set**, up to the first number that does not fit. -/
def build? : Recipe → Except Fault Any
  | .new capacity => .ok ⟨capacity, .empty capacity⟩
  | .standard => .ok ⟨0, .empty 0⟩
  | .ofList capacity numbers => do return ⟨capacity, ← BitSet.ofList? capacity numbers⟩
  | .copy r => r.build?
  | .insert r k => do
      let a ← r.build?
      return ⟨a.1, ← a.2.insert? k⟩
  | .insertRange r low high => do
      let a ← r.build?
      return ⟨a.1, ← a.2.insertRange? low high⟩
  | .union r other => do
      let a ← r.build?
      let b ← other.build?
      return ⟨a.1, ← a.2.union? b.2⟩

/-- A number is added somewhere in the recipe. -/
def Adds : Recipe → Nat → Prop
  | .new _, _ => False
  | .standard, _ => False
  | .ofList _ numbers, m => m ∈ numbers
  | .copy r, m => r.Adds m
  | .insert r k, m => r.Adds m ∨ m = k
  | .insertRange r low high, m => r.Adds m ∨ low ≤ m ∧ m ≤ high
  | .union r other, m => r.Adds m ∨ other.Adds m

/-- **A set that was made has the numbers that its recipe adds**, and no
others. -/
theorem contains_of_build? {r : Recipe} {a : Any} (h : r.build? = .ok a) (m : Nat) :
    a.2.contains m = true ↔ r.Adds m := by
  induction r generalizing a with
  | new capacity =>
      cases h
      simp [Adds]
  | standard =>
      cases h
      simp [Adds]
  | ofList capacity numbers =>
      obtain ⟨s, hs, h⟩ := exists_of_bind_eq_ok h
      cases h
      rw [contains_of_insertAll? hs]
      simp [Adds]
  | copy r ih => exact ih h
  | insert r k ih =>
      obtain ⟨a, ha, h⟩ := exists_of_bind_eq_ok h
      obtain ⟨s, hs, h⟩ := exists_of_bind_eq_ok h
      cases h
      rw [contains_of_insert? hs, ih ha, Adds]
  | insertRange r low high ih =>
      obtain ⟨a, ha, h⟩ := exists_of_bind_eq_ok h
      obtain ⟨s, hs, h⟩ := exists_of_bind_eq_ok h
      cases h
      rw [contains_of_insertRange? hs, ih ha, Adds]
  | union r other ih ih' =>
      obtain ⟨a, ha, h⟩ := exists_of_bind_eq_ok h
      obtain ⟨b, hb, h⟩ := exists_of_bind_eq_ok h
      obtain ⟨s, hs, h⟩ := exists_of_bind_eq_ok h
      cases h
      rw [contains_of_union? hs, ih ha, ih' hb, Adds]

end Recipe

/-! ## §5. Equality of sets. -/

/-- **`same` is equality of members**: it holds of two sets of any capacities
exactly if every number is in both or in neither.  So it is an equivalence,
and all that it sees of how two sets were made is which numbers were added. -/
theorem same_is_equality_of_members :
    (∀ a b : Any, a.Same b ↔ ∀ m, a.2.contains m = b.2.contains m) ∧
    Equivalence Any.Same ∧
    ∀ (r r' : Recipe) (a b : Any), r.build? = .ok a → r'.build? = .ok b →
      (a.Same b ↔ ∀ m, r.Adds m ↔ r'.Adds m) := by
  refine ⟨fun a b => same_iff_contains, Any.same_equivalence, ?_⟩
  intro r r' a b ha hb
  rw [Any.Same, same_iff_contains]
  refine forall_congr' fun m => ?_
  rw [Bool.eq_iff_iff, Recipe.contains_of_build? ha, Recipe.contains_of_build? hb]

/-- The numbers 1, 5 and 9, once from a list, and once from two other sets and
into another capacity. -/
theorem same_is_equality_of_members_mixed :
    ∃ a b : Any, (Recipe.ofList 64 [1, 5, 9]).build? = .ok a ∧
      (Recipe.union (.insert (.copy (.ofList 10 [9])) 1) (.insertRange (.new 7) 5 5)).build? =
        .ok b ∧
      a.1 ≠ b.1 ∧ a.Same b := by
  refine ⟨_, _, rfl, rfl, by decide, ?_⟩
  refine (same_is_equality_of_members.2.2 (.ofList 64 [1, 5, 9])
    (.union (.insert (.copy (.ofList 10 [9])) 1) (.insertRange (.new 7) 5 5)) _ _ rfl rfl).2 ?_
  intro m
  simp only [Recipe.Adds, List.mem_cons, List.not_mem_nil, or_false, false_or]
  omega

end BitSet

end LineScan
