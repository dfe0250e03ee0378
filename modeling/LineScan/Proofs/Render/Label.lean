/-
  LineScan.Proofs.Render.Label
  ────────────────────────────
  **WHEN TWO LABELS READ THE SAME.**

  A label puts the forms of its symbols one after the other, ascending, with
  nothing between them.  A form is one character or two:

      0x00 … 0x1F    a caret and the character 64 places on
      ' " \          a backslash and the character
      any other      the character

  No form begins another one, but for the caret: it stands for itself and
  begins the forms of all control symbols (`formCodes_append_inj`).  What may
  follow a caret in an ascending label is a character behind it, and the only
  form of a control symbol that goes on so is `^_`, that of `0x1F`.  Hence two
  sets have one label exactly when they are equal, or when they differ in
  that one holds `0x1F` where the other holds the caret and the underscore,
  and neither holds anything between (`labelText_eq_iff`).
-/
import LineScan.Render.Graph
import Mathlib.Data.Fintype.Basic
import Mathlib.Data.List.Sort

namespace LineScan

/-! ## §1. Forms. -/

namespace Symbol

/-- The control symbol `0x1F`. -/
def unitSeparator : Symbol := ⟨31, by decide⟩

/-- The caret. -/
def caret : Symbol := ⟨94, by decide⟩

/-- The underscore. -/
def underscore : Symbol := ⟨95, by decide⟩

/-- The numbers of the characters of a symbol in a label. -/
def formCodes (a : Symbol) : List Nat :=
  if a.val < 32 then [94, a.val + 64]
  else if a.val = 34 ∨ a.val = 39 ∨ a.val = 92 then [92, a.val]
  else [a.val]

theorem map_toNat_labelText :
    ∀ a : Symbol, a.labelText.toList.map Char.toNat = a.formCodes := by
  decide +kernel

/-- **Forms are told apart by how they begin**, unless one is a caret and the
other that of a control symbol. -/
theorem formCodes_append_inj {a b : Symbol} {x y : List Nat}
    (h : a.formCodes ++ x = b.formCodes ++ y) :
    (a = b ∧ x = y) ∨ (a.val < 32 ∧ b.val = 94 ∧ y = (a.val + 64) :: x) ∨
      (b.val < 32 ∧ a.val = 94 ∧ x = (b.val + 64) :: y) := by
  unfold formCodes at h
  rw [Fin.ext_iff]
  by_cases ha : a.val < 32 <;> by_cases hb : b.val < 32
  · simp only [if_pos ha, if_pos hb, List.cons_append, List.nil_append, List.cons.injEq] at h
    exact .inl ⟨by omega, h.2.2⟩
  · rw [if_pos ha, if_neg hb] at h
    -- a form that begins with a caret, and is not that of a control symbol, is a caret
    split at h <;> simp only [List.cons_append, List.nil_append, List.cons.injEq] at h
    · omega
    · exact .inr (.inl ⟨ha, h.1.symm, h.2.symm⟩)
  · rw [if_neg ha, if_pos hb] at h
    split at h <;> simp only [List.cons_append, List.nil_append, List.cons.injEq] at h
    · omega
    · exact .inr (.inr ⟨hb, h.1, h.2⟩)
  · rw [if_neg ha, if_neg hb] at h
    split at h <;> split at h <;>
      simp only [List.cons_append, List.nil_append, List.cons.injEq] at h
    · exact .inl h.2
    · omega
    · omega
    · exact .inl h

theorem formCodes_of_gt {a : Symbol} (h : 94 ≤ a.val) : a.formCodes = [a.val] := by
  unfold formCodes
  rw [if_neg (by omega), if_neg (by omega)]

end Symbol

/-! ## §2. Labels. -/

/-- The numbers of the characters of symbols in a label. -/
def labelCodes (symbols : List Symbol) : List Nat := symbols.flatMap Symbol.formCodes

/-- The label of a set of symbols. -/
def SymbolSet.labelText (S : SymbolSet) : String := String.join (S.members.map Symbol.labelText)

theorem Transition.labelText_eq {size : Nat} (t : Transition size) :
    t.labelText = t.symbols.labelText := rfl

theorem SymbolSet.map_toNat_labelText (S : SymbolSet) :
    S.labelText.toList.map Char.toNat = labelCodes S.members := by
  rw [SymbolSet.labelText, String.toList_join, List.flatMap_map, List.map_flatMap]
  simp only [Symbol.map_toNat_labelText]
  rfl

theorem SymbolSet.labelText_eq_iff_codes {S T : SymbolSet} :
    S.labelText = T.labelText ↔ labelCodes S.members = labelCodes T.members := by
  rw [← SymbolSet.map_toNat_labelText, ← SymbolSet.map_toNat_labelText]
  constructor
  · intro h
    rw [h]
  · intro h
    exact String.toList_inj.1 (List.map_injective_iff.2 (fun _ _ => Char.toNat_inj.1) h)

/-- The symbols of a set, ascending. -/
theorem SymbolSet.members_pairwise (S : SymbolSet) : S.members.Pairwise (· < ·) :=
  (List.pairwise_lt_finRange alphabetSize).filter _

/-! ## §3. Ascending symbols with one label. -/

/-- The same symbols, but that `0x1F` stands where a caret and an underscore
stand. -/
def Abbreviates (l m : List Symbol) : Prop :=
  ∃ p q, l = p ++ Symbol.unitSeparator :: q ∧ m = p ++ Symbol.caret :: Symbol.underscore :: q

variable {l m : List Symbol}

theorem labelCodes_cons (a : Symbol) (l : List Symbol) :
    labelCodes (a :: l) = a.formCodes ++ labelCodes l := rfl

theorem labelCodes_cons_ne_nil (a : Symbol) (l : List Symbol) : labelCodes (a :: l) ≠ [] := by
  rw [labelCodes_cons]
  unfold Symbol.formCodes
  split
  · exact List.cons_ne_nil _ _
  · split <;> exact List.cons_ne_nil _ _

/-- Without control symbols, a label is read back. -/
theorem eq_of_labelCodes_eq_of_printable (h : labelCodes l = labelCodes m)
    (hl : ∀ a ∈ l, 32 ≤ a.val) (hm : ∀ a ∈ m, 32 ≤ a.val) : l = m := by
  induction l generalizing m with
  | nil =>
      cases m with
      | nil => rfl
      | cons b m => exact absurd h.symm (labelCodes_cons_ne_nil b m)
  | cons a l ih =>
      cases m with
      | nil => exact absurd h (labelCodes_cons_ne_nil a l)
      | cons b m =>
          simp only [List.mem_cons, forall_eq_or_imp] at hl hm
          rcases Symbol.formCodes_append_inj h with ⟨rfl, htail⟩ | ⟨hcontrol, _⟩ | ⟨hcontrol, _⟩
          · rw [ih htail hl.2 hm.2]
          · omega
          · omega

/-- **Behind a caret, only `0x1F` goes on**, and it goes on with the
underscore. -/
theorem abbreviates_of_caret {a : Symbol} (ha : a.val < 32) (hl : (a :: l).Pairwise (· < ·))
    (hm : (Symbol.caret :: m).Pairwise (· < ·))
    (h : labelCodes m = (a.val + 64) :: labelCodes l) :
    Abbreviates (a :: l) (Symbol.caret :: m) := by
  rw [List.pairwise_cons] at hl hm
  cases m with
  | nil => exact absurd h.symm (List.cons_ne_nil _ _)
  | cons b m =>
      have hb : 94 < b.val := hm.1 b List.mem_cons_self
      rw [labelCodes_cons, Symbol.formCodes_of_gt (by omega), List.singleton_append,
        List.cons.injEq] at h
      have hab : a = Symbol.unitSeparator := Fin.ext (show a.val = 31 by omega)
      have hbu : b = Symbol.underscore := Fin.ext (show b.val = 95 by omega)
      subst hab hbu
      refine ⟨[], l, rfl, ?_⟩
      -- what is left holds no control symbols any more
      rw [eq_of_labelCodes_eq_of_printable h.2]
      · rfl
      · intro c hc
        have hc : 95 < c.val := (List.pairwise_cons.1 hm.2).1 c hc
        omega
      · intro c hc
        have hc : 31 < c.val := hl.1 c hc
        omega

/-- **Ascending symbols with one label** are the same, or the same but for
`0x1F`. -/
theorem eq_or_abbreviates_of_labelCodes_eq (hl : l.Pairwise (· < ·)) (hm : m.Pairwise (· < ·))
    (h : labelCodes l = labelCodes m) : l = m ∨ Abbreviates l m ∨ Abbreviates m l := by
  induction l generalizing m with
  | nil =>
      cases m with
      | nil => exact .inl rfl
      | cons b m => exact absurd h.symm (labelCodes_cons_ne_nil b m)
  | cons a l ih =>
      cases m with
      | nil => exact absurd h (labelCodes_cons_ne_nil a l)
      | cons b m =>
          rcases Symbol.formCodes_append_inj h with ⟨rfl, htail⟩ | ⟨ha, hb, htail⟩ | ⟨hb, ha, htail⟩
          · rcases ih (List.pairwise_cons.1 hl).2 (List.pairwise_cons.1 hm).2 htail with
              rfl | ⟨p, q, rfl, rfl⟩ | ⟨p, q, rfl, rfl⟩
            · exact .inl rfl
            · exact .inr (.inl ⟨a :: p, q, rfl, rfl⟩)
            · exact .inr (.inr ⟨a :: p, q, rfl, rfl⟩)
          · have hcaret : b = Symbol.caret := Fin.ext hb
            subst hcaret
            exact .inr (.inl (abbreviates_of_caret ha hl hm htail))
          · have hcaret : a = Symbol.caret := Fin.ext ha
            subst hcaret
            exact .inr (.inr (abbreviates_of_caret hb hm hl htail))

theorem Abbreviates.labelCodes_eq (h : Abbreviates l m) : labelCodes l = labelCodes m := by
  obtain ⟨p, q, rfl, rfl⟩ := h
  unfold labelCodes
  rw [List.flatMap_append, List.flatMap_append]
  rfl

/-! ## §4. Sets with one label. -/

/-- **Two sets that a label does not tell apart**: of the symbols from `0x1F`
to the underscore, `S` holds `0x1F` alone and `T` the caret and the underscore
alone; elsewhere they agree. -/
structure SymbolSet.Confused (S T : SymbolSet) : Prop where
  /-- What `S` holds there. -/
  control : ∀ k, 31 ≤ k → k ≤ 95 → (S.contains k = true ↔ k = 31)
  /-- What `T` holds there. -/
  caret : ∀ k, 31 ≤ k → k ≤ 95 → (T.contains k = true ↔ k = 94 ∨ k = 95)
  /-- What both hold elsewhere. -/
  elsewhere : ∀ k, k < 31 ∨ 95 < k → S.contains k = T.contains k

/-- Equal, or not told apart by a label. -/
def SymbolSet.Alike (S T : SymbolSet) : Prop := S = T ∨ S.Confused T ∨ T.Confused S

variable {S T : SymbolSet}

theorem contains_iff_mem_map {k : Nat} : S.contains k = true ↔ k ∈ S.members.map Fin.val := by
  rw [List.mem_map]
  constructor
  · intro h
    exact ⟨⟨k, BitSet.lt_of_contains h⟩, BitSet.mem_members.2 h, rfl⟩
  · rintro ⟨a, ha, rfl⟩
    exact BitSet.mem_members.1 ha

theorem SymbolSet.Confused.of_abbreviates (h : Abbreviates S.members T.members) :
    S.Confused T := by
  obtain ⟨p, q, hS, hT⟩ := h
  have hSpair := S.members_pairwise
  have hTpair := T.members_pairwise
  rw [hS, List.pairwise_append] at hSpair
  rw [hT, List.pairwise_append] at hTpair
  -- the symbols before and behind are out of the range in question
  have hp : ∀ k ∈ p.map Fin.val, k < 31 := by
    intro k hk
    obtain ⟨a, ha, rfl⟩ := List.mem_map.1 hk
    exact hSpair.2.2 a ha Symbol.unitSeparator List.mem_cons_self
  have hq : ∀ k ∈ q.map Fin.val, 95 < k := by
    intro k hk
    obtain ⟨a, ha, rfl⟩ := List.mem_map.1 hk
    exact (List.pairwise_cons.1 (List.pairwise_cons.1 hTpair.2.1).2).1 a ha
  have hmid : ∀ k, 31 ≤ k → k ≤ 95 → k ∉ p.map Fin.val ∧ k ∉ q.map Fin.val := by
    intro k hlow hhigh
    refine ⟨fun hk => ?_, fun hk => ?_⟩
    · have hlt := hp k hk
      omega
    · have hgt := hq k hk
      omega
  have hSiff : ∀ k, S.contains k = true ↔
      k ∈ p.map Fin.val ∨ k = 31 ∨ k ∈ q.map Fin.val := by
    intro k
    rw [contains_iff_mem_map, hS, List.map_append, List.map_cons, List.mem_append, List.mem_cons]
    rfl
  have hTiff : ∀ k, T.contains k = true ↔
      k ∈ p.map Fin.val ∨ k = 94 ∨ k = 95 ∨ k ∈ q.map Fin.val := by
    intro k
    rw [contains_iff_mem_map, hT, List.map_append, List.map_cons, List.map_cons, List.mem_append,
      List.mem_cons, List.mem_cons]
    rfl
  refine ⟨?_, ?_, ?_⟩
  · intro k hlow hhigh
    simp only [hSiff, hmid k hlow hhigh, false_or, or_false]
  · intro k hlow hhigh
    simp only [hTiff, hmid k hlow hhigh, false_or, or_false]
  · intro k hk
    rw [Bool.eq_iff_iff, hSiff, hTiff]
    have hne : k ≠ 31 ∧ k ≠ 94 ∧ k ≠ 95 := by omega
    simp only [hne.1, hne.2.1, hne.2.2, false_or]

/-- The symbols of a set: those before `0x1F`, those up to the underscore, and
those behind it. -/
theorem SymbolSet.members_eq_append {p m q : List Symbol} (hpsorted : p.Pairwise (· < ·))
    (hmsorted : m.Pairwise (· < ·)) (hqsorted : q.Pairwise (· < ·))
    (hp : ∀ a : Symbol, a ∈ p ↔ S.contains a.val = true ∧ a.val < 31)
    (hm : ∀ a : Symbol, a ∈ m ↔ S.contains a.val = true ∧ 31 ≤ a.val ∧ a.val ≤ 95)
    (hq : ∀ a : Symbol, a ∈ q ↔ S.contains a.val = true ∧ 95 < a.val) :
    S.members = p ++ (m ++ q) := by
  have hsorted : (p ++ (m ++ q)).Pairwise (· < ·) := by
    rw [List.pairwise_append, List.pairwise_append]
    refine ⟨hpsorted, ⟨hmsorted, hqsorted, ?_⟩, ?_⟩
    · intro a ha b hb
      have ha := (hm a).1 ha
      have hb := (hq b).1 hb
      show a.val < b.val
      omega
    · intro a ha b hb
      have ha := (hp a).1 ha
      have hb : 31 ≤ b.val := by
        rcases List.mem_append.1 hb with hb | hb
        · exact ((hm b).1 hb).2.1
        · have hb := (hq b).1 hb
          omega
      show a.val < b.val
      omega
  refine S.members_pairwise.sortedLT.eq_of_mem_iff hsorted.sortedLT fun a => ?_
  rw [BitSet.mem_members, List.mem_append, List.mem_append, hp, hm, hq, ← and_or_left,
    ← and_or_left]
  refine (and_iff_left ?_).symm
  omega

theorem SymbolSet.Confused.abbreviates (h : S.Confused T) :
    Abbreviates S.members T.members := by
  let p := S.members.filter fun a => decide (a.val < 31)
  let q := S.members.filter fun a => decide (95 < a.val)
  have hp : ∀ a : Symbol, a ∈ p ↔ S.contains a.val = true ∧ a.val < 31 := by
    intro a
    rw [List.mem_filter, BitSet.mem_members, decide_eq_true_iff]
  have hq : ∀ a : Symbol, a ∈ q ↔ S.contains a.val = true ∧ 95 < a.val := by
    intro a
    rw [List.mem_filter, BitSet.mem_members, decide_eq_true_iff]
  have hpsorted : p.Pairwise (· < ·) := S.members_pairwise.filter _
  have hqsorted : q.Pairwise (· < ·) := S.members_pairwise.filter _
  refine ⟨p, q,
    SymbolSet.members_eq_append (m := [Symbol.unitSeparator]) hpsorted (by decide) hqsorted hp ?_ hq,
    SymbolSet.members_eq_append (m := [Symbol.caret, Symbol.underscore]) hpsorted (by decide)
      hqsorted ?_ ?_ ?_⟩
  · intro a
    rw [List.mem_singleton, Fin.ext_iff]
    constructor
    · intro ha
      have ha : a.val = 31 := ha
      exact ⟨(h.control a.val (by omega) (by omega)).2 ha, by omega, by omega⟩
    · rintro ⟨ha, hlow, hhigh⟩
      exact (h.control a.val hlow hhigh).1 ha
  · -- outside the range, `T` holds what `S` holds
    intro a
    rw [hp]
    refine and_congr_left fun ha => ?_
    rw [h.elsewhere a.val (.inl ha)]
  · intro a
    rw [List.mem_cons, List.mem_singleton, Fin.ext_iff, Fin.ext_iff]
    constructor
    · intro ha
      have ha : a.val = 94 ∨ a.val = 95 := ha
      exact ⟨(h.caret a.val (by omega) (by omega)).2 ha, by omega, by omega⟩
    · rintro ⟨ha, hlow, hhigh⟩
      exact (h.caret a.val hlow hhigh).1 ha
  · intro a
    rw [hq]
    refine and_congr_left fun ha => ?_
    rw [h.elsewhere a.val (.inr ha)]

/-- **Two sets have one label** exactly when they are alike. -/
theorem SymbolSet.labelText_eq_iff : S.labelText = T.labelText ↔ S.Alike T := by
  rw [SymbolSet.labelText_eq_iff_codes]
  constructor
  · intro h
    rcases eq_or_abbreviates_of_labelCodes_eq S.members_pairwise T.members_pairwise h with
      heq | habb | habb
    · refine .inl (BitSet.ext fun a => ?_)
      rw [Bool.eq_iff_iff, ← BitSet.mem_members, ← BitSet.mem_members, heq]
    · exact .inr (.inl (.of_abbreviates habb))
    · exact .inr (.inr (.of_abbreviates habb))
  · rintro (rfl | h | h)
    · rfl
    · exact h.abbreviates.labelCodes_eq
    · exact h.abbreviates.labelCodes_eq.symm

theorem SymbolSet.Confused.contains_eq (h : S.Confused T) {k : Nat} (h31 : k ≠ 31)
    (h94 : k ≠ 94) (h95 : k ≠ 95) : S.contains k = T.contains k := by
  by_cases hk : 31 ≤ k ∧ k ≤ 95
  · -- neither set holds a symbol between
    have hS := h.control k hk.1 hk.2
    have hT := h.caret k hk.1 hk.2
    rw [Bool.eq_iff_iff, hS, hT]
    omega
  · exact h.elsewhere k (by omega)

/-- Sets that are alike agree on every symbol but `0x1F`, the caret and the
underscore. -/
theorem SymbolSet.Alike.contains_eq (h : S.Alike T) {k : Nat} (h31 : k ≠ 31) (h94 : k ≠ 94)
    (h95 : k ≠ 95) : S.contains k = T.contains k := by
  rcases h with rfl | h | h
  · rfl
  · exact h.contains_eq h31 h94 h95
  · exact (h.contains_eq h31 h94 h95).symm

end LineScan
