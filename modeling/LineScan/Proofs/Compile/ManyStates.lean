/-
  LineScan.Proofs.Compile.ManyStates
  ──────────────────────────────────
  **SHORT PATTERNS WITH MANY STATES.**

  An automaton has at least as many states as there are words that it must
  keep apart: words that can be continued to accepted ones, any two of which
  are told apart by some continuation (`card_le_size`).

  The expression `lookBack k` matches the words over two letters in which the
  first letter stands `k` letters before the last one.  To decide that, the
  last `k + 1` letters must be known, all of them: each of them stands at the
  decisive place after the right number of further letters.  So an automaton
  of a pattern of about `4 * k` characters has at least `2 ^ (k + 1)` states
  (`two_pow_le_size`).
-/
import LineScan.Proofs.Compile.Canonical
import Mathlib.Data.Fintype.BigOperators

namespace LineScan

/-! ## §1. Words that must be kept apart. -/

namespace Dfa

variable {d : Dfa}

/-- A word that can be continued to an accepted one leads somewhere. -/
theorem exists_runFrom_of_accepts {u v : Word} (h : d.accepts (u ++ v) = true) :
    ∃ s, d.runFrom d.start u = some s := by
  rw [accepts_eq_outcome, outcome_append] at h
  cases hs : d.runFrom d.start u with
  | none =>
      rw [hs] at h
      cases h
  | some s => exact ⟨s, rfl⟩

/-- What follows a word is accepted from where the word leads. -/
theorem accepts_append {u : Word} {s : Fin d.size} (h : d.runFrom d.start u = some s) (v : Word) :
    d.accepts (u ++ v) = (d.outcome s v).getD false := by
  rw [accepts_eq_outcome, outcome_append, h, Option.bind_some]

/-- **Words that must be kept apart lead to different states.** -/
theorem card_le_size {ι : Type} [Fintype ι] (word : ι → Word)
    (hrun : ∀ i, ∃ v, d.accepts (word i ++ v) = true)
    (happart : ∀ i j, (∀ v, d.accepts (word i ++ v) = d.accepts (word j ++ v)) → i = j) :
    Fintype.card ι ≤ d.size := by
  have hstate : ∀ i, ∃ s, d.runFrom d.start (word i) = some s := by
    intro i
    obtain ⟨v, hv⟩ := hrun i
    exact exists_runFrom_of_accepts hv
  choose state hstate using hstate
  have hinj : Function.Injective state := by
    intro i j hij
    refine happart i j fun v => ?_
    rw [accepts_append (hstate i), accepts_append (hstate j), hij]
  calc Fintype.card ι ≤ Fintype.card (Fin d.size) := Fintype.card_le_of_injective state hinj
    _ = d.size := Fintype.card_fin d.size

end Dfa

/-! ## §2. Looking back. -/

/-- The symbol that is looked for. -/
def letterA : Symbol := ⟨97, by decide⟩

/-- Another symbol. -/
def letterB : Symbol := ⟨98, by decide⟩

/-- Either of the two symbols. -/
def Regex.letters : Regex := .cls ⟨BitSet.ofList [letterA, letterB], false⟩

/-- **The first letter, `k` letters before the end.** -/
def Regex.lookBack : Nat → Regex
  | 0 => .cat (.star letters) (.symbol letterA)
  | k + 1 => .cat (lookBack k) letters

/-- A word over the two letters, `true` for the first of them. -/
def spell (bs : List Bool) : Word := bs.map fun b => (if b then letterA else letterB).toByte

theorem spell_append (bs cs : List Bool) : spell (bs ++ cs) = spell bs ++ spell cs :=
  List.map_append

theorem spell_injective : Function.Injective spell := by
  refine List.map_injective_iff.2 fun b c h => ?_
  cases b <;> cases c <;> first | rfl | exact absurd h (by decide)

theorem mem_letters {w : Word} : w ∈ Regex.letters.language ↔ ∃ b, w = spell [b] := by
  have hsymbols : ∀ a : Symbol, a ∈ (Edge.cls ⟨BitSet.ofList [letterA, letterB], false⟩).symbols ↔
      a = letterA ∨ a = letterB := by
    intro a
    rw [Edge.mem_symbols_cls]
    simp [BitSet.contains_ofList, Fin.ext_iff]
  show (∃ a ∈ (Edge.cls ⟨BitSet.ofList [letterA, letterB], false⟩).symbols, w = [a.toByte]) ↔ _
  constructor
  · rintro ⟨a, ha, rfl⟩
    rcases (hsymbols a).1 ha with rfl | rfl
    · exact ⟨true, rfl⟩
    · exact ⟨false, rfl⟩
  · rintro ⟨b, rfl⟩
    cases b with
    | true => exact ⟨letterA, (hsymbols _).2 (.inl rfl), rfl⟩
    | false => exact ⟨letterB, (hsymbols _).2 (.inr rfl), rfl⟩

theorem mem_star_letters {w : Word} :
    w ∈ (Regex.star Regex.letters).language ↔ ∃ bs, w = spell bs := by
  show w ∈ KStar.kstar Regex.letters.language ↔ _
  rw [Language.mem_kstar]
  constructor
  · rintro ⟨parts, rfl, hparts⟩
    induction parts with
    | nil => exact ⟨[], rfl⟩
    | cons part parts ih =>
        rw [List.forall_mem_cons] at hparts
        obtain ⟨b, rfl⟩ := mem_letters.1 hparts.1
        obtain ⟨bs, hbs⟩ := ih hparts.2
        exact ⟨b :: bs, by rw [List.flatten_cons, hbs, ← spell_append, List.singleton_append]⟩
  · rintro ⟨bs, rfl⟩
    refine ⟨bs.map fun b => spell [b], ?_, ?_⟩
    · induction bs with
      | nil => rfl
      | cons b bs ih =>
          rw [List.map_cons, List.flatten_cons, ← ih, ← spell_append, List.singleton_append]
    · intro part hpart
      obtain ⟨b, _, rfl⟩ := List.mem_map.1 hpart
      exact mem_letters.2 ⟨b, rfl⟩

/-- **What `lookBack` matches.** -/
theorem mem_lookBack {k : Nat} {w : Word} :
    w ∈ (Regex.lookBack k).language ↔ ∃ bs, w = spell bs ∧ bs.reverse[k]? = some true := by
  -- one letter more moves the decisive place one further back
  induction k generalizing w with
  | zero =>
      show w ∈ (Regex.star Regex.letters).language * (Regex.symbol letterA).language ↔ _
      rw [Language.mem_mul]
      constructor
      · rintro ⟨u, hu, v, ⟨a, ha, rfl⟩, rfl⟩
        obtain ⟨bs, rfl⟩ := mem_star_letters.1 hu
        rw [Set.mem_singleton_iff.1 ha]
        exact ⟨bs ++ [true], by rw [spell_append]; rfl, by simp⟩
      · rintro ⟨bs, rfl, hlast⟩
        rcases List.eq_nil_or_concat' bs with rfl | ⟨front, b, rfl⟩
        · cases hlast
        · have hb : b = true := by simpa using hlast
          subst hb
          exact ⟨spell front, mem_star_letters.2 ⟨front, rfl⟩, [letterA.toByte],
            ⟨letterA, rfl, rfl⟩, (spell_append front [true]).symm⟩
  | succ k ih =>
      show w ∈ (Regex.lookBack k).language * Regex.letters.language ↔ _
      rw [Language.mem_mul]
      constructor
      · rintro ⟨u, hu, v, hv, rfl⟩
        obtain ⟨bs, rfl, hbs⟩ := ih.1 hu
        obtain ⟨b, rfl⟩ := mem_letters.1 hv
        exact ⟨bs ++ [b], (spell_append bs [b]).symm, by simpa using hbs⟩
      · rintro ⟨bs, rfl, hbs⟩
        rcases List.eq_nil_or_concat' bs with rfl | ⟨front, b, rfl⟩
        · cases hbs
        · exact ⟨spell front, ih.2 ⟨front, rfl, by simpa using hbs⟩, spell [b],
            mem_letters.2 ⟨b, rfl⟩, (spell_append front [b]).symm⟩

/-! ## §3. The states of such an automaton. -/

section

variable {pattern : String} {k : Nat} {d : Dfa}

theorem accepts_spell (hrules : readRules pattern = .ok [⟨false, .lookBack k, false⟩])
    (hd : compile pattern = .ok d) (bs : List Bool) :
    d.accepts (spell bs) = true ↔ bs.reverse[k]? = some true := by
  have hlanguage : Rule.languageOf [⟨false, .lookBack k, false⟩] =
      (Regex.lookBack k).language := by
    rw [Rule.languageOf_singleton]
    show 1 * (Regex.lookBack k).language * 1 = _
    rw [one_mul, mul_one]
  rw [accepts_of_compile hrules hd, hlanguage, mem_lookBack]
  constructor
  · rintro ⟨cs, hcs, hlast⟩
    rw [spell_injective hcs]
    exact hlast
  · intro h
    exact ⟨bs, rfl, h⟩

/-- **The letters before the end make that many states.** -/
theorem two_pow_le_size (hrules : readRules pattern = .ok [⟨false, .lookBack k, false⟩])
    (hd : compile pattern = .ok d) : 2 ^ (k + 1) ≤ d.size := by
  -- the last letter first
  let word : (Fin (k + 1) → Bool) → Word := fun f => spell (List.ofFn f).reverse
  have haccepts : ∀ f cs, d.accepts (word f ++ spell cs) = true ↔
      (cs.reverse ++ List.ofFn f)[k]? = some true := by
    intro f cs
    rw [← spell_append, accepts_spell hrules hd, List.reverse_append, List.reverse_reverse]
  have hcard : Fintype.card (Fin (k + 1) → Bool) = 2 ^ (k + 1) := by simp
  rw [← hcard]
  refine Dfa.card_le_size word ?_ ?_
  · intro f
    -- the first letter, and `k` letters behind it
    refine ⟨spell (true :: List.replicate k false), (haccepts f _).2 ?_⟩
    rw [List.reverse_cons, List.append_assoc, List.getElem?_append_right (by simp)]
    simp
  · intro f g h
    funext j
    -- the letter at `j` gets to the decisive place after `k - j` letters
    have hplace : ∀ f : Fin (k + 1) → Bool,
        d.accepts (word f ++ spell (List.replicate (k - j.val) false)) = true ↔ f j = true := by
      intro f
      have hj : k - (k - j.val) = j.val := by omega
      rw [haccepts, List.reverse_replicate, List.getElem?_append_right (by simp),
        List.length_replicate, hj, List.getElem?_ofFn, dif_pos j.isLt, Option.some_inj]
    rw [Bool.eq_iff_iff, ← hplace f, ← hplace g, h]

end

end LineScan
