/-
  LineScan.Proofs.Dfa.Canonical
  ─────────────────────────────
  **REDUCED AUTOMATA DIFFER IN NAMES ONLY.**

  Take two reduced automata that accept the same words.  A word that reaches
  a state of one of them reaches a state of the other from which the same
  words are accepted: the two states *agree*.  A reduced automaton has no two
  states that agree with the same one, so agreement is a bijection, and the
  rest is read off it:

      start        both starts are reached by the empty word
      acceptance   the empty word
      transitions  a symbol leads on exactly when some accepted word begins
                   with it, and where it leads the rest is accepted
-/
import LineScan.Proofs.Dfa.Minimality

namespace LineScan

namespace Dfa

variable {d d' : Dfa} {s : Fin d.size} {t : Fin d'.size} {a : Symbol}

/-! ## §1. Accepted words and transitions. -/

theorem acceptsFrom_nil (d : Dfa) (s : Fin d.size) :
    d.acceptsFrom s [] = (d.state s).accepting := rfl

theorem acceptsFrom_cons_of_next {s' : Fin d.size} (h : d.next s a.toByte = some s')
    (w : List Symbol) : d.acceptsFrom s (a :: w) = d.acceptsFrom s' w := by
  unfold acceptsFrom
  rw [List.map_cons, outcome_cons, h, Option.bind_some]

/-- No accepted word begins with a symbol that leads nowhere. -/
theorem acceptsFrom_cons_of_none (h : d.next s a.toByte = none) (w : List Symbol) :
    d.acceptsFrom s (a :: w) = false := by
  unfold acceptsFrom
  rw [List.map_cons, outcome_cons, h]
  rfl

/-- Some accepted word begins with a symbol that leads anywhere. -/
theorem Reduced.exists_acceptsFrom_cons (hd : d.Reduced) {s' : Fin d.size}
    (h : d.next s a.toByte = some s') : ∃ w, d.acceptsFrom s (a :: w) = true := by
  obtain ⟨w, hw⟩ := hd.live s'
  exact ⟨w, by rw [acceptsFrom_cons_of_next h, acceptsFrom, hw, Option.getD_some]⟩

/-! ## §2. States that agree. -/

/-- From both states the same words are accepted. -/
def Agree (d d' : Dfa) (s : Fin d.size) (t : Fin d'.size) : Prop :=
  ∀ w, d.acceptsFrom s w = d'.acceptsFrom t w

theorem Agree.symm (h : d.Agree d' s t) : d'.Agree d t s := fun w => (h w).symm

theorem agree_start (h : ∀ w : Word, d.accepts w = d'.accepts w) :
    d.Agree d' d.start d'.start := by
  intro w
  rw [acceptsFrom_start, acceptsFrom_start, h]

theorem Agree.accepting_eq (h : d.Agree d' s t) :
    (d.state s).accepting = (d'.state t).accepting := by
  rw [← acceptsFrom_nil, ← acceptsFrom_nil, h]

/-- **A symbol leads to states that agree**, or from both nowhere. -/
theorem Agree.next (hd : d.Reduced) (hd' : d'.Reduced) (h : d.Agree d' s t) (a : Symbol) :
    (d.next s a.toByte = none ∧ d'.next t a.toByte = none) ∨
      ∃ s' t', d.next s a.toByte = some s' ∧ d'.next t a.toByte = some t' ∧ d.Agree d' s' t' := by
  cases hs : d.next s a.toByte with
  | none =>
      cases ht : d'.next t a.toByte with
      | none => exact .inl ⟨rfl, rfl⟩
      | some t' =>
          obtain ⟨w, hw⟩ := hd'.exists_acceptsFrom_cons ht
          rw [← h, acceptsFrom_cons_of_none hs] at hw
          cases hw
  | some s' =>
      cases ht : d'.next t a.toByte with
      | none =>
          obtain ⟨w, hw⟩ := hd.exists_acceptsFrom_cons hs
          rw [h, acceptsFrom_cons_of_none ht] at hw
          cases hw
      | some t' =>
          refine .inr ⟨s', t', rfl, rfl, fun w => ?_⟩
          rw [← acceptsFrom_cons_of_next hs, h, acceptsFrom_cons_of_next ht]

/-- A word leads from states that agree to states that agree, if it leads
anywhere. -/
theorem Agree.runFrom (hd : d.Reduced) (hd' : d'.Reduced) (h : d.Agree d' s t) (w : List Symbol)
    {s' : Fin d.size} (hs : d.runFrom s (w.map Symbol.toByte) = some s') :
    ∃ t', d'.runFrom t (w.map Symbol.toByte) = some t' ∧ d.Agree d' s' t' := by
  induction w generalizing s t with
  | nil =>
      cases hs
      exact ⟨t, rfl, h⟩
  | cons a w ih =>
      rw [List.map_cons, runFrom_cons] at hs ⊢
      rcases h.next hd hd' a with ⟨hnone, _⟩ | ⟨s₁, t₁, hs₁, ht₁, hagree⟩
      · rw [hnone] at hs
        cases hs
      · rw [hs₁, Option.bind_some] at hs
        rw [ht₁, Option.bind_some]
        exact ih hagree hs

/-- Every state agrees with one of the other automaton. -/
theorem Reduced.exists_agree (hd : d.Reduced) (hd' : d'.Reduced)
    (h : ∀ w : Word, d.accepts w = d'.accepts w) (s : Fin d.size) : ∃ t, d.Agree d' s t := by
  obtain ⟨w, hw⟩ := hd.reachable s
  obtain ⟨t, _, hagree⟩ := (agree_start h).runFrom hd hd' w hw
  exact ⟨t, hagree⟩

/-! ## §3. Renaming. -/

/-- **A renaming of states**: a bijection that keeps the start, acceptance and
every transition. -/
structure Renaming (d d' : Dfa) (f : Fin d.size ≃ Fin d'.size) : Prop where
  /-- The start keeps its name. -/
  start : f d.start = d'.start
  /-- A state accepts under its new name as it did. -/
  accepting : ∀ s, (d'.state (f s)).accepting = (d.state s).accepting
  /-- A byte leads where it led, under its new name, or nowhere as before. -/
  next : ∀ s b, d'.next (f s) b = (d.next s b).map f

/-- **Reduced automata that accept the same words are the same** up to a
renaming of their states. -/
theorem Reduced.exists_renaming (hd : d.Reduced) (hd' : d'.Reduced)
    (h : ∀ w : Word, d.accepts w = d'.accepts w) : ∃ f, d.Renaming d' f := by
  choose f hf using hd.exists_agree hd' h
  choose g hg using hd'.exists_agree hd fun w => (h w).symm
  -- states that agree with the same state are the same
  have hunique : ∀ {s : Fin d.size} {t t' : Fin d'.size},
      d.Agree d' s t → d.Agree d' s t' → t = t' := by
    intro s t t' ht ht'
    exact hd'.eq_of_acceptsFrom fun w => (ht w).symm.trans (ht' w)
  have hleft : ∀ s, g (f s) = s := by
    intro s
    exact hd.eq_of_acceptsFrom fun w => (hg (f s) w).symm.trans (hf s w).symm
  have hright : ∀ t, f (g t) = t := fun t => hunique (hf (g t)) (hg t).symm
  refine ⟨⟨f, g, hleft, hright⟩, hunique (hf _) (agree_start h), fun s => (hf s).accepting_eq.symm,
    fun s b => ?_⟩
  show d'.next (f s) b = (d.next s b).map f
  by_cases hb : b.toNat < alphabetSize
  · have hbyte : b = Symbol.toByte ⟨b.toNat, hb⟩ := by
      rw [← Symbol.ofByte?_eq_some_iff, Symbol.ofByte?, dif_pos hb]
    rcases (hf s).next hd hd' ⟨b.toNat, hb⟩ with ⟨hs, ht⟩ | ⟨s', t', hs, ht, hagree⟩
    · rw [hbyte, hs, ht, Option.map_none]
    · rw [hbyte, hs, ht, Option.map_some, hunique hagree (hf s')]
  · rw [next_eq_none _ hb, next_eq_none _ hb, Option.map_none]

end Dfa

end LineScan
