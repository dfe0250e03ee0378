/-
  LineScan.Proofs.StateName
  ─────────────────────────
  **NAMES NUMBER THE STATES.**

  A text of letters is a number in bijective base 26, most significant letter
  first: `A` is one, `Z` is twenty-six, and there is no zero.  The name of a
  state is the text whose number is one above the state's.

      reading    the number of a written number       (`lettersValue_bijectiveLetters`)
      writing    the letters of a read one            (`bijectiveLetters_lettersValue`)
      order      shorter texts come first, texts of one length as in a
                 dictionary                           (`lettersValue_lt_of_precedes`)

  So no two states share a name, and every text of letters names a state.
-/
import LineScan.StateName
import Mathlib.Data.List.Induction
import Mathlib.Data.String.Basic

namespace LineScan

/-! ## §1. Letters. -/

/-- One of the letters that names are made of. -/
def IsNameLetter (c : Char) : Prop := 'A' ≤ c ∧ c ≤ 'Z'

/-- What a letter counts for: `A` one, `Z` twenty-six. -/
def letterValue (c : Char) : Nat := c.toNat - 64

/-- The number that letters stand for, most significant letter first, read on
from the number of the letters before them. -/
def lettersValueFrom (n : Nat) (cs : List Char) : Nat :=
  cs.foldl (fun n c => 26 * n + letterValue c) n

/-- **The number that letters stand for.** -/
def lettersValue (cs : List Char) : Nat := lettersValueFrom 0 cs

variable {c d : Char} {cs ds : List Char}

theorem isNameLetter_iff : IsNameLetter c ↔ 65 ≤ c.toNat ∧ c.toNat ≤ 90 := Iff.rfl

theorem toNat_ofNat_letter {k : Nat} (h : k < 26) : (Char.ofNat (65 + k)).toNat = 65 + k := by
  have hall : ∀ k : Fin 26, (Char.ofNat (65 + k.val)).toNat = 65 + k.val := by decide
  exact hall ⟨k, h⟩

theorem isNameLetter_ofNat {k : Nat} (h : k < 26) : IsNameLetter (Char.ofNat (65 + k)) := by
  rw [isNameLetter_iff, toNat_ofNat_letter h]
  omega

theorem letterValue_ofNat {k : Nat} (h : k < 26) : letterValue (Char.ofNat (65 + k)) = k + 1 := by
  rw [letterValue, toNat_ofNat_letter h]
  omega

theorem letterValue_bounds (h : IsNameLetter c) : 1 ≤ letterValue c ∧ letterValue c ≤ 26 := by
  rw [isNameLetter_iff] at h
  unfold letterValue
  omega

/-- A letter is the one with its value. -/
theorem ofNat_letterValue (h : IsNameLetter c) : Char.ofNat (65 + (letterValue c - 1)) = c := by
  rw [isNameLetter_iff] at h
  have hc : 65 + (letterValue c - 1) = c.toNat := by
    unfold letterValue
    omega
  rw [hc, Char.ofNat_toNat]

theorem letterValue_lt (hc : IsNameLetter c) (h : c < d) : letterValue c < letterValue d := by
  rw [isNameLetter_iff] at hc
  have hlt : c.toNat < d.toNat := h
  unfold letterValue
  omega

@[simp] theorem lettersValue_nil : lettersValue [] = 0 := rfl

theorem lettersValueFrom_cons (n : Nat) (c : Char) (cs : List Char) :
    lettersValueFrom n (c :: cs) = lettersValueFrom (26 * n + letterValue c) cs := by
  rw [lettersValueFrom, List.foldl_cons]
  rfl

@[simp] theorem lettersValue_concat (cs : List Char) (c : Char) :
    lettersValue (cs ++ [c]) = 26 * lettersValue cs + letterValue c := by
  simp [lettersValue, lettersValueFrom]

/-! ## §2. Reading and writing. -/

theorem bijectiveLetters_succ (n : Nat) :
    bijectiveLetters (n + 1) = bijectiveLetters (n / 26) ++ [Char.ofNat (65 + n % 26)] := by
  rw [bijectiveLetters]

/-- A number is written in letters. -/
theorem isNameLetter_of_mem (n : Nat) : ∀ c ∈ bijectiveLetters n, IsNameLetter c := by
  fun_induction bijectiveLetters n with
  | case1 =>
      intro c hc
      cases hc
  | case2 n ih =>
      intro c hc
      rcases List.mem_append.1 hc with hc | hc
      · exact ih c hc
      · rw [List.mem_singleton.1 hc]
        exact isNameLetter_ofNat (Nat.mod_lt n (by decide))

/-- **A number is read as it was written.** -/
theorem lettersValue_bijectiveLetters (n : Nat) : lettersValue (bijectiveLetters n) = n := by
  fun_induction bijectiveLetters n with
  | case1 => rfl
  | case2 n ih =>
      rw [lettersValue_concat, ih, letterValue_ofNat (Nat.mod_lt n (by decide))]
      omega

/-- **Letters are written as they were read.** -/
theorem bijectiveLetters_lettersValue (h : ∀ c ∈ cs, IsNameLetter c) :
    bijectiveLetters (lettersValue cs) = cs := by
  -- the last letter is the last one written, so the induction is from the end
  induction cs using List.reverseRecOn with
  | nil =>
      rw [lettersValue_nil]
      unfold bijectiveLetters
      rfl
  | append_singleton cs c ih =>
      have hc : IsNameLetter c := h c (by simp)
      have hrest := ih fun d hd => h d (List.mem_append_left _ hd)
      have hbounds := letterValue_bounds hc
      have hvalue : lettersValue (cs ++ [c]) =
          26 * lettersValue cs + (letterValue c - 1) + 1 := by
        rw [lettersValue_concat]
        omega
      have hdiv : (26 * lettersValue cs + (letterValue c - 1)) / 26 = lettersValue cs := by omega
      have hmod : (26 * lettersValue cs + (letterValue c - 1)) % 26 = letterValue c - 1 := by omega
      rw [hvalue, bijectiveLetters_succ, hdiv, hmod, hrest, ofNat_letterValue hc]

/-! ## §3. The order of letters. -/

/-- Shorter, or as long and earlier in a dictionary. -/
def Precedes (cs ds : List Char) : Prop :=
  cs.length < ds.length ∨ (cs.length = ds.length ∧ cs < ds)

theorem precedes_total (cs ds : List Char) : Precedes cs ds ∨ cs = ds ∨ Precedes ds cs := by
  rcases Nat.lt_trichotomy cs.length ds.length with hlen | hlen | hlen
  · exact .inl (.inl hlen)
  · rcases lt_trichotomy cs ds with h | h | h
    · exact .inl (.inr ⟨hlen, h⟩)
    · exact .inr (.inl h)
    · exact .inr (.inr (.inr ⟨hlen.symm, h⟩))
  · exact .inr (.inr (.inl hlen))

/-- What comes before decides, whatever letters follow. -/
theorem lettersValueFrom_lt_of_lt {m n : Nat} (h : m < n) (hlen : cs.length = ds.length)
    (hcs : ∀ c ∈ cs, IsNameLetter c) (hds : ∀ d ∈ ds, IsNameLetter d) :
    lettersValueFrom m cs < lettersValueFrom n ds := by
  induction cs generalizing m n ds with
  | nil =>
      rw [List.eq_nil_of_length_eq_zero hlen.symm]
      exact h
  | cons c cs ih =>
      cases ds with
      | nil => simp at hlen
      | cons d ds =>
          simp only [List.mem_cons, forall_eq_or_imp] at hcs hds
          have hc := letterValue_bounds hcs.1
          have hd := letterValue_bounds hds.1
          rw [lettersValueFrom_cons, lettersValueFrom_cons]
          exact ih (by omega) (by simpa using hlen) hcs.2 hds.2

/-- Of two texts of one length, the earlier one in a dictionary stands for the
smaller number. -/
theorem lettersValueFrom_lt_of_lex (n : Nat) (hlen : cs.length = ds.length) (h : cs < ds)
    (hcs : ∀ c ∈ cs, IsNameLetter c) (hds : ∀ d ∈ ds, IsNameLetter d) :
    lettersValueFrom n cs < lettersValueFrom n ds := by
  induction cs generalizing n ds with
  | nil =>
      rw [List.eq_nil_of_length_eq_zero hlen.symm] at h
      exact absurd h (lt_irrefl _)
  | cons c cs ih =>
      cases ds with
      | nil => simp at hlen
      | cons d ds =>
          simp only [List.mem_cons, forall_eq_or_imp] at hcs hds
          have hlen' : cs.length = ds.length := by simpa using hlen
          rw [lettersValueFrom_cons, lettersValueFrom_cons]
          rcases List.cons_lt_cons_iff.1 h with hlt | ⟨heq, hlt⟩
          · -- the first letter decides
            have hcd := letterValue_lt hcs.1 hlt
            exact lettersValueFrom_lt_of_lt (by omega) hlen' hcs.2 hds.2
          · subst heq
            exact ih _ hlen' hlt hcs.2 hds.2

/-- The number of the first text of a length, `A…A`. -/
def leastValue : Nat → Nat
  | 0 => 0
  | k + 1 => 26 * leastValue k + 1

theorem leastValue_mono {j k : Nat} (h : j ≤ k) : leastValue j ≤ leastValue k := by
  induction h with
  | refl => exact Nat.le_refl _
  | step _ ih =>
      refine Nat.le_trans ih ?_
      simp only [leastValue]
      omega

/-- The texts of a length stand for the numbers from the first such text up to
the first longer one. -/
theorem lettersValue_bounds (h : ∀ c ∈ cs, IsNameLetter c) :
    leastValue cs.length ≤ lettersValue cs ∧ lettersValue cs < leastValue (cs.length + 1) := by
  induction cs using List.reverseRecOn with
  | nil => exact ⟨Nat.le_refl _, Nat.zero_lt_one⟩
  | append_singleton cs c ih =>
      have hrest := ih fun d hd => h d (List.mem_append_left _ hd)
      have hc := letterValue_bounds (h c (by simp))
      rw [lettersValue_concat, List.length_append, List.length_singleton]
      simp only [leastValue] at hrest ⊢
      omega

/-- **Numbers are ordered as their letters are.** -/
theorem lettersValue_lt_of_precedes (h : Precedes cs ds) (hcs : ∀ c ∈ cs, IsNameLetter c)
    (hds : ∀ d ∈ ds, IsNameLetter d) : lettersValue cs < lettersValue ds := by
  rcases h with hlt | ⟨hlen, hlt⟩
  · have hbefore := (lettersValue_bounds hcs).2
    have hbehind := (lettersValue_bounds hds).1
    have hmono := leastValue_mono (show cs.length + 1 ≤ ds.length from hlt)
    omega
  · exact lettersValueFrom_lt_of_lex 0 hlen hlt hcs hds

/-! ## §4. Names. -/

/-- A text that may name a state: letters only, at least one. -/
def IsStateName (name : String) : Prop := name ≠ "" ∧ ∀ c ∈ name.toList, IsNameLetter c

/-- The number that a name stands for. -/
def nameValue (name : String) : Nat := lettersValue name.toList

theorem toList_stateName (i : Nat) : (stateName i).toList = bijectiveLetters (i + 1) := by
  rw [stateName, String.toList_ofList]

@[simp] theorem nameValue_stateName (i : Nat) : nameValue (stateName i) = i + 1 := by
  rw [nameValue, toList_stateName, lettersValue_bijectiveLetters]

theorem isNameLetter_of_mem_stateName {i : Nat} (h : c ∈ (stateName i).toList) :
    IsNameLetter c := by
  rw [toList_stateName] at h
  exact isNameLetter_of_mem _ c h

theorem isStateName_stateName (i : Nat) : IsStateName (stateName i) := by
  refine ⟨?_, fun c hc => isNameLetter_of_mem_stateName hc⟩
  intro hempty
  -- the empty text stands for zero
  have hvalue := nameValue_stateName i
  rw [hempty, nameValue, String.toList_empty, lettersValue_nil] at hvalue
  omega

/-- **No two states share a name.** -/
theorem stateName_injective : Function.Injective stateName := by
  intro i j h
  have hvalue := congrArg nameValue h
  rw [nameValue_stateName, nameValue_stateName] at hvalue
  omega

/-- A name is the name of the state below its number. -/
theorem stateName_eq_iff {name : String} (h : IsStateName name) (i : Nat) :
    stateName i = name ↔ i + 1 = nameValue name := by
  constructor
  · intro hname
    rw [← hname, nameValue_stateName]
  · intro hvalue
    rw [stateName, hvalue, nameValue, bijectiveLetters_lettersValue h.2, String.ofList_toList]

theorem nameValue_pos {name : String} (h : IsStateName name) : 0 < nameValue name := by
  have hlen : 0 < name.toList.length := by
    rw [List.length_pos_iff]
    intro hnil
    exact h.1 (String.toList_inj.1 hnil)
  have hleast := (lettersValue_bounds h.2).1
  have hmono := leastValue_mono hlen
  exact Nat.lt_of_lt_of_le (Nat.lt_of_lt_of_le Nat.zero_lt_one hmono) hleast

/-- **Names are a numbering of the texts of letters.**  The name of state `i`
is such a text and stands for `i + 1`; every such text is the name of exactly
one state; and a state comes before another exactly when its name is shorter,
or as long and earlier in a dictionary. -/
theorem stateName_numbers :
    (∀ i, IsStateName (stateName i) ∧ nameValue (stateName i) = i + 1) ∧
      Function.Injective stateName ∧
      (∀ name, IsStateName name → ∃! i, stateName i = name) ∧
      ∀ i j, i < j ↔ (stateName i).length < (stateName j).length ∨
        ((stateName i).length = (stateName j).length ∧ stateName i < stateName j) := by
  have hletters : ∀ i, ∀ c ∈ (stateName i).toList, IsNameLetter c :=
    fun i => (isStateName_stateName i).2
  refine ⟨fun i => ⟨isStateName_stateName i, nameValue_stateName i⟩, stateName_injective, ?_, ?_⟩
  · intro name hname
    have hpos := nameValue_pos hname
    refine ⟨nameValue name - 1, (stateName_eq_iff hname _).2 (by omega), ?_⟩
    intro i hi
    have hvalue := (stateName_eq_iff hname i).1 hi
    omega
  · intro i j
    have hlt : ∀ i j, Precedes (stateName i).toList (stateName j).toList → i < j := by
      intro i j h
      have hvalues := lettersValue_lt_of_precedes h (hletters i) (hletters j)
      have hi := nameValue_stateName i
      have hj := nameValue_stateName j
      unfold nameValue at hi hj
      omega
    rw [← String.length_toList, ← String.length_toList, String.lt_iff_toList_lt]
    refine ⟨fun h => ?_, hlt i j⟩
    rcases precedes_total (stateName i).toList (stateName j).toList with hbefore | heq | hbehind
    · exact hbefore
    · -- one name, one state
      have hij := stateName_injective (String.toList_inj.1 heq)
      omega
    · have hji := hlt j i hbehind
      omega

end LineScan
