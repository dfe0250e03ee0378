/-
  LineScan.Proofs.Dfa.Outcome
  ───────────────────────────
  **WHAT CAN BE SEEN OF A STATE.**

  A word that is read from a state leads nowhere, or to a state that accepts,
  or to one that does not: that is its outcome.  Two states with the same
  outcome for every word are indistinguishable, and no partition that merges
  states may be judged by anything else.
-/
import LineScan.Dfa.Basic

namespace LineScan

namespace Dfa

variable {d d' : Dfa} {s t : Fin d.size}

/-! ## §1. Runs. -/

theorem runFrom_cons (d : Dfa) (s : Fin d.size) (b : UInt8) (w : Word) :
    d.runFrom s (b :: w) = (d.next s b).bind fun t => d.runFrom t w := by
  rw [runFrom]
  cases d.next s b <;> rfl

/-- A map of states that follows every byte follows every word. -/
theorem runFrom_map {h : Fin d.size → Fin d'.size}
    (hnext : ∀ s b, d'.next (h s) b = (d.next s b).map h) (s : Fin d.size) (w : Word) :
    d'.runFrom (h s) w = (d.runFrom s w).map h := by
  induction w generalizing s with
  | nil => rfl
  | cons b w ih =>
      rw [runFrom_cons, runFrom_cons, hnext]
      cases d.next s b with
      | none => rfl
      | some t => exact ih t

/-- If it also keeps the start and acceptance, the automata accept the same
words. -/
theorem accepts_map {h : Fin d.size → Fin d'.size} (hstart : h d.start = d'.start)
    (hnext : ∀ s b, d'.next (h s) b = (d.next s b).map h)
    (haccepting : ∀ s, (d'.state (h s)).accepting = (d.state s).accepting) (w : Word) :
    d'.accepts w = d.accepts w := by
  unfold accepts
  rw [← hstart, runFrom_map hnext]
  cases d.runFrom d.start w with
  | none => rfl
  | some s => exact haccepting s

/-! ## §2. Outcomes. -/

/-- Whether the word leads to an accepting state; nothing if it leads
nowhere. -/
def outcome (d : Dfa) (s : Fin d.size) (w : Word) : Option Bool :=
  (d.runFrom s w).map fun t => (d.state t).accepting

theorem outcome_cons (d : Dfa) (s : Fin d.size) (b : UInt8) (w : Word) :
    d.outcome s (b :: w) = (d.next s b).bind fun t => d.outcome t w := by
  unfold outcome
  rw [runFrom_cons]
  cases d.next s b <;> rfl

/-- **No word of symbols tells the states apart.** -/
def Indistinguishable (d : Dfa) (s t : Fin d.size) : Prop :=
  ∀ w : List Symbol, d.outcome s (w.map Symbol.toByte) = d.outcome t (w.map Symbol.toByte)

theorem Indistinguishable.accepting_eq (h : d.Indistinguishable s t) :
    (d.state s).accepting = (d.state t).accepting :=
  Option.some.inj (h [])

/-- A symbol leads from indistinguishable states nowhere, or to
indistinguishable states. -/
theorem Indistinguishable.next (h : d.Indistinguishable s t) (a : Symbol) :
    (d.next s a.toByte = none ∧ d.next t a.toByte = none) ∨
      ∃ s' t', d.next s a.toByte = some s' ∧ d.next t a.toByte = some t' ∧
        d.Indistinguishable s' t' := by
  have hcons : ∀ w : List Symbol,
      ((d.next s a.toByte).bind fun s' => d.outcome s' (w.map Symbol.toByte)) =
        (d.next t a.toByte).bind fun t' => d.outcome t' (w.map Symbol.toByte) := by
    intro w
    rw [← outcome_cons, ← outcome_cons]
    exact h (a :: w)
  cases hs : d.next s a.toByte with
  | none =>
      cases ht : d.next t a.toByte with
      | none => exact .inl ⟨rfl, rfl⟩
      | some t' =>
          have hempty := hcons []
          rw [hs, ht] at hempty
          cases hempty
  | some s' =>
      cases ht : d.next t a.toByte with
      | none =>
          have hempty := hcons []
          rw [hs, ht] at hempty
          cases hempty
      | some t' =>
          refine .inr ⟨s', t', rfl, rfl, fun w => ?_⟩
          have hw := hcons w
          rw [hs, ht] at hw
          exact hw

end Dfa

end LineScan
