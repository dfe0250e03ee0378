/-
  LineScan.Proofs.Dfa.Minimality
  ──────────────────────────────
  **A REDUCED AUTOMATON IS AS SMALL AS POSSIBLE.**

  A `Machine` is any deterministic automaton over the symbols, whatever its
  states are; transitions may be missing.  If it accepts the words that a
  reduced automaton accepts, then a word that reaches a state of the reduced
  automaton reaches a state of the machine from which the same words are
  accepted: the machine *shadows* the automaton.  One state of a machine
  cannot shadow two states, for these would accept the same words, and live
  states that do are indistinguishable.
-/
import LineScan.Proofs.Dfa.Reachable

namespace LineScan

universe u

/-! ## §1. Machines. -/

/-- **A deterministic automaton over the symbols**, with states of any kind
and a transition on some symbols. -/
structure Machine (σ : Type u) where
  /-- Where every run begins. -/
  start : σ
  /-- Where a symbol leads, if it leads anywhere. -/
  next : σ → Symbol → Option σ
  /-- Whether a run may stop here. -/
  accepting : σ → Bool

namespace Machine

variable {σ : Type u} (M : Machine σ)

/-- Where a word leads from a state, if every symbol leads on. -/
def runFrom (q : σ) : List Symbol → Option σ
  | [] => some q
  | a :: w =>
      match M.next q a with
      | none => none
      | some q' => runFrom q' w

/-- Whether a word leads from a state to an accepting one. -/
def acceptsFrom (q : σ) (w : List Symbol) : Bool :=
  match M.runFrom q w with
  | none => false
  | some q' => M.accepting q'

/-- **Whether the machine accepts a word.** -/
def accepts (w : List Symbol) : Bool := M.acceptsFrom M.start w

theorem runFrom_append (q : σ) (u v : List Symbol) :
    M.runFrom q (u ++ v) = (M.runFrom q u).bind fun q' => M.runFrom q' v := by
  induction u generalizing q with
  | nil => rfl
  | cons a u ih =>
      rw [List.cons_append, runFrom, runFrom]
      cases M.next q a with
      | none => rfl
      | some q' => exact ih q'

theorem acceptsFrom_append {q q' : σ} {u : List Symbol} (h : M.runFrom q u = some q')
    (v : List Symbol) : M.acceptsFrom q (u ++ v) = M.acceptsFrom q' v := by
  unfold acceptsFrom
  rw [runFrom_append, h, Option.bind_some]

end Machine

/-! ## §2. Words that are accepted tell live states apart. -/

namespace Dfa

variable {d : Dfa} {s t : Fin d.size}

/-- Whether the word leads from the state to an accepting one. -/
def acceptsFrom (d : Dfa) (s : Fin d.size) (w : List Symbol) : Bool :=
  (d.outcome s (w.map Symbol.toByte)).getD false

theorem acceptsFrom_start (d : Dfa) (w : List Symbol) :
    d.acceptsFrom d.start w = d.accepts (w.map Symbol.toByte) :=
  (d.accepts_eq_outcome _).symm

theorem acceptsFrom_append {u : List Symbol} (h : d.runFrom s (u.map Symbol.toByte) = some t)
    (v : List Symbol) : d.acceptsFrom s (u ++ v) = d.acceptsFrom t v := by
  unfold acceptsFrom
  rw [List.map_append, outcome_append, h, Option.bind_some]

/-- A word that leads anywhere can be continued to one that is accepted. -/
theorem Reduced.exists_continuation (hd : d.Reduced) {w : List Symbol} {b : Bool}
    (h : d.outcome s (w.map Symbol.toByte) = some b) :
    ∃ v, d.acceptsFrom s (w ++ v) = true := by
  unfold outcome at h
  rw [Option.map_eq_some_iff] at h
  obtain ⟨t, ht, _⟩ := h
  obtain ⟨v, hv⟩ := hd.live t
  exact ⟨v, by rw [acceptsFrom_append ht, acceptsFrom, hv, Option.getD_some]⟩

/-- A word that leads nowhere has no such continuation. -/
theorem acceptsFrom_append_of_none {w : List Symbol}
    (h : d.outcome s (w.map Symbol.toByte) = none) (v : List Symbol) :
    d.acceptsFrom s (w ++ v) = false := by
  unfold outcome at h
  rw [Option.map_eq_none_iff] at h
  unfold acceptsFrom
  rw [List.map_append, outcome_append, h]
  rfl

/-- **Live states from which the same words are accepted** are
indistinguishable, and so the same. -/
theorem Reduced.eq_of_acceptsFrom (hd : d.Reduced)
    (h : ∀ w, d.acceptsFrom s w = d.acceptsFrom t w) : s = t := by
  have hnone : ∀ {s t : Fin d.size}, (∀ w, d.acceptsFrom s w = d.acceptsFrom t w) →
      ∀ {w : List Symbol}, d.outcome s (w.map Symbol.toByte) = none →
        d.outcome t (w.map Symbol.toByte) = none := by
    intro s t h w hs
    cases ht : d.outcome t (w.map Symbol.toByte) with
    | none => rfl
    | some b =>
        obtain ⟨v, hv⟩ := hd.exists_continuation ht
        rw [← h, acceptsFrom_append_of_none hs] at hv
        cases hv
  apply hd.separate
  intro w
  -- either word leads nowhere from both, or it leads to states that accept alike
  cases hs : d.outcome s (w.map Symbol.toByte) with
  | none => rw [hnone h hs]
  | some b =>
      cases ht : d.outcome t (w.map Symbol.toByte) with
      | none =>
          rw [hnone (fun w => (h w).symm) ht] at hs
          cases hs
      | some c =>
          have hw := h w
          rw [acceptsFrom, acceptsFrom, hs, ht, Option.getD_some, Option.getD_some] at hw
          rw [hw]

/-! ## §3. Shadows. -/

variable {σ : Type u} {M : Machine σ}

/-- From the state of the machine, the same words are accepted as from the
state of the automaton. -/
def Shadows (d : Dfa) (M : Machine σ) (q : σ) (s : Fin d.size) : Prop :=
  ∀ w, M.acceptsFrom q w = d.acceptsFrom s w

/-- Every state has a shadow. -/
theorem Reduced.exists_shadow (hd : d.Reduced)
    (hM : ∀ w : List Symbol, M.accepts w = d.accepts (w.map Symbol.toByte)) (s : Fin d.size) :
    ∃ q, d.Shadows M q s := by
  obtain ⟨u, hu⟩ := hd.reachable s
  have hword : ∀ w, M.acceptsFrom M.start (u ++ w) = d.acceptsFrom s w := by
    intro w
    rw [← acceptsFrom_append hu, acceptsFrom_start, ← hM]
    rfl
  cases hq : M.runFrom M.start u with
  | some q => exact ⟨q, fun w => by rw [← M.acceptsFrom_append hq, hword]⟩
  | none =>
      -- the word can be continued to one that is accepted, so it leads somewhere
      obtain ⟨v, hv⟩ := hd.live s
      have hacc : M.acceptsFrom M.start (u ++ v) = true := by
        rw [hword, acceptsFrom, hv, Option.getD_some]
      unfold Machine.acceptsFrom at hacc
      rw [M.runFrom_append, hq] at hacc
      cases hacc

/-- **No machine that accepts the same words has fewer states.** -/
theorem Reduced.size_le_card [Fintype σ] (hd : d.Reduced)
    (hM : ∀ w : List Symbol, M.accepts w = d.accepts (w.map Symbol.toByte)) :
    d.size ≤ Fintype.card σ := by
  choose shadow hshadow using hd.exists_shadow hM
  have hinj : Function.Injective shadow := by
    intro s t hst
    apply hd.eq_of_acceptsFrom
    intro w
    rw [← hshadow s, hst, hshadow t]
  calc d.size = Fintype.card (Fin d.size) := (Fintype.card_fin d.size).symm
    _ ≤ Fintype.card σ := Fintype.card_le_of_injective shadow hinj

end Dfa

end LineScan
