/-
  LineScan.Proofs.Dfa.Transitions
  ───────────────────────────────
  **GROUPS OF SYMBOLS.**

  The transitions of a state are groups, and a byte leads where the first
  group that holds it says.  As long as no byte is in two groups
  (`Transitions.Separate`), the order of the groups does not matter, and
  merging groups replaces targets and changes nothing else
  (`target?_redirect`).
-/
import LineScan.Dfa.Quotient

namespace LineScan

namespace Transitions

variable {size size' : Nat} {ts : Transitions size} {b : UInt8} {s : Fin size} {S : SymbolSet}

/-! ## §1. Looking up a byte. -/

theorem target?_cons (t : Transition size) (ts : Transitions size) (b : UInt8) :
    target? (t :: ts) b = if t.symbols.contains b.toNat then some t.target else ts.target? b := by
  unfold target?
  rw [List.find?_cons]
  cases t.symbols.contains b.toNat <;> rfl

theorem target?_eq_none_iff :
    ts.target? b = none ↔ ∀ t ∈ ts, ¬ t.symbols.contains b.toNat = true := by
  unfold target?
  rw [Option.map_eq_none_iff, List.find?_eq_none]

/-- A byte outside the alphabet leads nowhere. -/
theorem toNat_lt_of_target? {t : Fin size} (h : ts.target? b = some t) :
    b.toNat < alphabetSize := by
  unfold target? at h
  rw [Option.map_eq_some_iff] at h
  obtain ⟨group, hgroup, _⟩ := h
  have hb : group.symbols.contains b.toNat = true :=
    List.find?_some (p := fun t : Transition size => t.symbols.contains b.toNat) hgroup
  exact BitSet.lt_of_contains hb

/-- **Recording symbols** changes where they lead, if they led nowhere, and
nothing else. -/
theorem target?_record (h : S.contains b.toNat = true → ts.target? b = none) :
    (record s S ts).target? b = if S.contains b.toNat then some s else ts.target? b := by
  induction ts with
  | nil =>
      rw [record, target?_cons]
  | cons t ts ih =>
      rw [target?_cons] at h ⊢
      unfold record
      by_cases ht : t.symbols.contains b.toNat = true
      · -- the symbols cannot hold a byte that is in a group already
        have hS : ¬ S.contains b.toNat = true := by
          intro hS
          have := h hS
          rw [if_pos ht] at this
          cases this
        rw [if_pos ht, if_neg hS]
        split
        · rw [target?_cons, BitSet.contains_union, ht, Bool.true_or, if_pos rfl]
        · rw [target?_cons, if_pos ht]
      · -- the group takes the symbols, or the rest of the list does
        rw [if_neg ht] at h ⊢
        split
        case isTrue htarget =>
            rw [target?_cons, BitSet.contains_union, Bool.eq_false_iff.2 ht, Bool.false_or, htarget]
        case isFalse => rw [target?_cons, if_neg ht, ih h]

/-! ## §2. Groups that share no byte. -/

/-- No byte is in two groups. -/
def Separate (ts : Transitions size) : Prop :=
  ts.Pairwise fun t u => ∀ k, t.symbols.contains k = true → ¬ u.symbols.contains k = true

/-- A byte leads where any group that holds it says. -/
theorem Separate.target?_eq_some (h : ts.Separate) {t : Transition size} (ht : t ∈ ts)
    (hb : t.symbols.contains b.toNat = true) : ts.target? b = some t.target := by
  induction ts with
  | nil => cases ht
  | cons u ts ih =>
      obtain ⟨hfirst, hrest⟩ := List.pairwise_cons.1 h
      rw [target?_cons]
      rcases List.mem_cons.1 ht with ht | ht
      · rw [← ht, if_pos hb]
      · rw [if_neg fun hu => hfirst t ht _ hu hb]
        exact ih hrest ht

/-- A byte in a group after recording was in a group before, or is among the
symbols recorded. -/
theorem contains_of_mem_record {u : Transition size} (hu : u ∈ record s S ts) {k : Nat}
    (hk : u.symbols.contains k = true) :
    (∃ t ∈ ts, t.symbols.contains k = true) ∨ S.contains k = true := by
  induction ts with
  | nil =>
      rw [record, List.mem_singleton] at hu
      subst hu
      exact .inr hk
  | cons t ts ih =>
      unfold record at hu
      split at hu
      · rcases List.mem_cons.1 hu with hu | hu
        · subst hu
          rw [BitSet.contains_union, Bool.or_eq_true] at hk
          rcases hk with hk | hk
          · exact .inl ⟨t, List.mem_cons_self, hk⟩
          · exact .inr hk
        · exact .inl ⟨u, List.mem_cons_of_mem _ hu, hk⟩
      · rcases List.mem_cons.1 hu with hu | hu
        · subst hu
          exact .inl ⟨u, List.mem_cons_self, hk⟩
        · rcases ih hu with ⟨t', ht', hk'⟩ | hS
          · exact .inl ⟨t', List.mem_cons_of_mem _ ht', hk'⟩
          · exact .inr hS

theorem Separate.record (h : ts.Separate)
    (hS : ∀ t ∈ ts, ∀ k, t.symbols.contains k = true → ¬ S.contains k = true) :
    (record s S ts).Separate := by
  induction ts with
  | nil =>
      rw [Transitions.record]
      exact List.pairwise_singleton _ _
  | cons t ts ih =>
      obtain ⟨hfirst, hrest⟩ := List.pairwise_cons.1 h
      unfold Transitions.record
      split
      · refine List.pairwise_cons.2 ⟨?_, hrest⟩
        intro u hu k hk hk'
        rw [BitSet.contains_union, Bool.or_eq_true] at hk
        rcases hk with hk | hk
        · exact hfirst u hu k hk hk'
        · exact hS u (List.mem_cons_of_mem _ hu) k hk' hk
      · refine List.pairwise_cons.2 ⟨?_, ih hrest fun u hu => hS u (List.mem_cons_of_mem _ hu)⟩
        intro u hu k hk hk'
        rcases contains_of_mem_record hu hk' with ⟨t', ht', hk''⟩ | hk''
        · exact hfirst t' ht' k hk hk''
        · exact hS t List.mem_cons_self k hk hk''

/-! ## §3. Merging groups. -/

/-- Recording the groups of a list, one after the other. -/
theorem target?_foldl_record (f : Fin size → Fin size') (h : ts.Separate)
    (acc : Transitions size')
    (hacc : ∀ t ∈ ts, t.symbols.contains b.toNat = true → acc.target? b = none) :
    (ts.foldl (fun merged t => merged.record (f t.target) t.symbols) acc).target? b =
      (acc.target? b).or ((ts.target? b).map f) := by
  induction ts generalizing acc with
  | nil =>
      show acc.target? b = (acc.target? b).or none
      rw [Option.or_none]
  | cons t ts ih =>
      obtain ⟨hfirst, hrest⟩ := List.pairwise_cons.1 h
      have hstep := target?_record (s := f t.target) (hacc t List.mem_cons_self)
      rw [List.foldl_cons, ih hrest, hstep, target?_cons]
      · by_cases ht : t.symbols.contains b.toNat = true
        · rw [if_pos ht, if_pos ht, hacc t List.mem_cons_self ht]
          rfl
        · rw [if_neg ht, if_neg ht]
      · -- a byte of a later group is not in this one
        intro u hu hub
        have ht : ¬ t.symbols.contains b.toNat = true := fun ht => hfirst u hu _ ht hub
        rw [hstep, if_neg ht]
        exact hacc u (List.mem_cons_of_mem _ hu) hub

theorem Separate.foldl_record (f : Fin size → Fin size') (h : ts.Separate)
    {acc : Transitions size'} (hacc : acc.Separate)
    (hdisjoint : ∀ t ∈ ts, ∀ u ∈ acc, ∀ k, u.symbols.contains k = true →
      ¬ t.symbols.contains k = true) :
    (ts.foldl (fun merged t => merged.record (f t.target) t.symbols) acc).Separate := by
  induction ts generalizing acc with
  | nil => exact hacc
  | cons t ts ih =>
      obtain ⟨hfirst, hrest⟩ := List.pairwise_cons.1 h
      refine ih hrest (hacc.record (hdisjoint t List.mem_cons_self)) ?_
      intro u hu v hv k hk hk'
      rcases contains_of_mem_record hv hk with ⟨t', ht', hk''⟩ | hk''
      · exact hdisjoint u (List.mem_cons_of_mem _ hu) t' ht' k hk'' hk'
      · exact hfirst u hu k hk'' hk'

/-- **Merging groups replaces targets** and changes nothing else. -/
theorem target?_redirect (f : Fin size → Fin size') (h : ts.Separate) :
    Transitions.target? (Dfa.redirect f ts) b = (ts.target? b).map f := by
  unfold Dfa.redirect
  rw [target?_foldl_record f h]
  · rfl
  · intro t ht hb
    rfl

theorem Separate.redirect (f : Fin size → Fin size') (h : ts.Separate) :
    Separate (Dfa.redirect f ts) :=
  h.foldl_record f .nil fun _ _ _ hu => absurd hu List.not_mem_nil

end Transitions

end LineScan
