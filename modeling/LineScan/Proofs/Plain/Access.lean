/-
  LineScan.Proofs.Plain.Access
  ────────────────────────────
  **POSITIONS WITHOUT A BOUND IN THE TYPE.**

  The stages of this library hand each other numbers whose bound is part of
  their type, so a look-up cannot go wrong and nothing is left to be said
  about it.  The modules of this directory say it: they repeat the stages on
  plain numbers, where every look-up, every write and every insertion is
  checked and may be a `Fault`, and prove that none ever is.

  Here are the two accesses to a list, `lookUp?` and `overwrite?`, and what
  loops of steps that succeed come to.
-/
import LineScan.BitSet
import Mathlib.Data.List.OfFn
import Mathlib.Logic.Function.Basic

namespace LineScan

variable {α β γ ε : Type}

/-! ## §1. Steps that succeed. -/

theorem ok_bind (x : α) (f : α → Except ε β) : (Except.ok x >>= f) = f x := rfl

theorem exists_of_bind_eq_ok {x : Except ε α} {f : α → Except ε β} {r : β}
    (h : (x >>= f) = .ok r) : ∃ y, x = .ok y ∧ f y = .ok r := by
  cases x with
  | error e => cases h
  | ok y => exact ⟨y, rfl, h⟩

/-- A loop that collects results, each of which exists. -/
theorem mapM_eq_ok {f : α → Except ε β} {g : α → β} {l : List α} (h : ∀ x ∈ l, f x = .ok (g x)) :
    l.mapM f = .ok (l.map g) := by
  induction l with
  | nil => rfl
  | cons x l ih =>
      rw [List.mapM_cons, h x List.mem_cons_self, ok_bind,
        ih fun y hy => h y (List.mem_cons_of_mem x hy), ok_bind]
      rfl

theorem mapM_map_eq_ok {f : β → Except ε γ} {k : α → β} {g : α → γ} {l : List α}
    (h : ∀ x ∈ l, f (k x) = .ok (g x)) : (l.map k).mapM f = .ok (l.map g) := by
  rw [List.mapM_map]
  exact mapM_eq_ok h

/-- A loop that changes a state, seen through a view of the state. -/
theorem foldlM_eq_ok {f : β → α → Except ε β} {g : γ → α → γ} (view : γ → β) {l : List α}
    (h : ∀ s, ∀ x ∈ l, f (view s) x = .ok (view (g s x))) (s : γ) :
    l.foldlM f (view s) = .ok (view (l.foldl g s)) := by
  induction l generalizing s with
  | nil => rfl
  | cons x l ih =>
      rw [List.foldlM_cons, h s x List.mem_cons_self, ok_bind,
        ih fun s y hy => h s y (List.mem_cons_of_mem x hy)]
      rfl

/-! ## §2. Lists. -/

/-- The entry of a list at any position, or a fault. -/
def lookUp? (l : List α) (i : Nat) : Except Fault α :=
  match l[i]? with
  | some x => .ok x
  | none => .error (.outOfRange l.length i)

theorem lookUp?_of_getElem? {l : List α} {i : Nat} {x : α} (h : l[i]? = some x) :
    lookUp? l i = .ok x := by
  unfold lookUp?
  rw [h]

theorem lookUp?_map_toList {n : Nat} (v : Vector α n) (f : α → β) (i : Fin n) :
    lookUp? (v.toList.map f) i = .ok (f (v.get i)) := by
  have hentry : v.toList[i.val]? = some (v.get i) := by
    rw [Vector.getElem?_toList]
    exact Vector.getElem?_eq_getElem i.isLt
  apply lookUp?_of_getElem?
  rw [List.getElem?_map, hentry, Option.map_some]

theorem lookUp?_ofFn {n : Nat} (f : Fin n → α) (i : Fin n) :
    lookUp? (List.ofFn f) i = .ok (f i) := by
  apply lookUp?_of_getElem?
  rw [List.getElem?_ofFn, dif_pos i.isLt]

/-- Positions keep their entries when a list grows. -/
theorem map_getElem?_append {l m rest : List α} {positions : List Nat}
    (h : positions.map (l[·]?) = rest.map some) :
    positions.map ((l ++ m)[·]?) = rest.map some := by
  rw [← h]
  apply List.map_congr_left
  intro p hp
  have hmem : l[p]? ∈ rest.map some := h ▸ List.mem_map_of_mem hp
  obtain ⟨x, _, hx⟩ := List.mem_map.1 hmem
  exact List.getElem?_append_left (List.getElem?_eq_some_iff.1 hx.symm).1

/-- The positions of the entries that are new. -/
theorem map_range'_getElem?_append (l m : List α) :
    (List.range' l.length m.length).map ((l ++ m)[·]?) = m.map some := by
  apply List.ext_getElem (by simp)
  intro k hk hk'
  rw [List.length_map] at hk'
  rw [List.getElem_map, List.getElem_map, List.getElem_range', Nat.one_mul,
    List.getElem?_append_right (Nat.le_add_right _ _), Nat.add_sub_cancel_left,
    List.getElem?_eq_getElem hk']

/-- The list with the entry at any position replaced, or a fault. -/
def overwrite? (l : List α) (i : Nat) (x : α) : Except Fault (List α) :=
  if i < l.length then .ok (l.set i x) else .error (.outOfRange l.length i)

theorem overwrite?_ofFn {n : Nat} (f : Fin n → α) (i : Fin n) (x : α) :
    overwrite? (List.ofFn f) i x = .ok (List.ofFn (Function.update f i x)) := by
  unfold overwrite?
  rw [if_pos (by rw [List.length_ofFn]; exact i.isLt)]
  congr 1
  apply List.ext_getElem (by simp)
  intro k hk hk'
  rw [List.getElem_set, List.getElem_ofFn, List.getElem_ofFn]
  by_cases hki : i.val = k
  · subst hki
    rw [if_pos rfl, Function.update_self]
  · rw [if_neg hki, Function.update_of_ne]
    intro h
    exact hki (congrArg Fin.val h).symm

theorem overwrite?_map {l : List α} {i : Nat} (f : α → β) (h : i < l.length) (x : α) :
    overwrite? (l.map f) i (f x) = .ok ((l.set i x).map f) := by
  unfold overwrite?
  rw [if_pos (by rwa [List.length_map]), List.map_set]

/-- Writes the same entry to several positions. -/
def overwriteAll? (l : List α) (positions : List Nat) (x : α) : Except Fault (List α) :=
  positions.foldlM (fun l i => overwrite? l i x) l

theorem overwriteAll?_ofFn {n : Nat} (f : Fin n → α) (positions : List (Fin n)) (x : α) :
    overwriteAll? (List.ofFn f) (positions.map Fin.val) x =
      .ok (List.ofFn fun i => if i ∈ positions then x else f i) := by
  induction positions generalizing f with
  | nil => simp [overwriteAll?, pure, Except.pure]
  | cons i rest ih =>
      have hrest := ih (Function.update f i x)
      unfold overwriteAll? at hrest ⊢
      rw [List.map_cons, List.foldlM_cons, overwrite?_ofFn, ok_bind, hrest]
      congr 2
      funext k
      by_cases hk : k = i
      · subst hk
        simp
      · simp [hk]

/-! ## §3. Sets. -/

namespace BitSet

variable {c : Nat}

theorem insert?_val (s : BitSet c) (i : Fin c) : s.insert? i = .ok (s.insert i) := by
  unfold insert?
  rw [dif_pos i.isLt]

theorem insertAll?_map_val (s : BitSet c) (members : List (Fin c)) :
    s.insertAll? (members.map Fin.val) = .ok (s.insertAll members) := by
  unfold insertAll? insertAll
  rw [List.foldlM_map]
  exact foldlM_eq_ok id (fun s i _ => s.insert?_val i) s

theorem ofList?_map_val (members : List (Fin c)) :
    ofList? c (members.map Fin.val) = .ok (ofList members) :=
  insertAll?_map_val _ members

/-- A set of the same capacity always fits. -/
theorem union?_eq_union (s t : BitSet c) : s.union? t = .ok (s.union t) := by
  unfold union?
  rw [insertAll?_map_val]
  congr 1
  apply ext
  intro i
  rw [contains_insertAll, contains_union, Bool.eq_iff_iff]
  simp [Fin.val_inj]

/-- A range up to a member of the universe fits. -/
theorem insertRange?_eq_insertRange (s : BitSet c) (low : Nat) {high : Nat} (h : high < c) :
    s.insertRange? low high = .ok (s.insertRange low high) := by
  unfold insertRange?
  rw [if_neg fun hle => Nat.not_le_of_lt h hle.2]

end BitSet

end LineScan
