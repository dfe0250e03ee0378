/-
  LineScan.Proofs.Compile.Live
  ────────────────────────────
  **WHEN A COMPILED AUTOMATON HAS DEAD STATES.**

  A state is dead when no word leads from it to acceptance.  Row 0 of every
  table is such a state, and no other one is needed.  Neither exploration nor
  merging removes dead states, so a compiled automaton is free of them exactly
  if there are none to begin with: if every word that some run of nodes
  survives is the beginning of a word that is matched.

  Every node leads onward to a terminal one, so runs only get stuck at classes
  that hold no symbol.  A complemented class over the whole alphabet is one,
  and the state that waits for it is dead.
-/
import LineScan.Proofs.Compile.Minimal

namespace LineScan

/-! ## §1. Dead states and words that get stuck. -/

namespace Dfa

variable {d : Dfa}

/-- When all states are reached, they are all live exactly if every word that
leads anywhere can be continued to one that is accepted. -/
theorem forall_live_iff (hreach : ∀ s, d.Reachable s) :
    (∀ s, d.Live s) ↔
      ∀ u : List Symbol, d.runFrom d.start (u.map Symbol.toByte) ≠ none →
        ∃ v : List Symbol, d.accepts ((u ++ v).map Symbol.toByte) = true := by
  constructor
  · intro h u hu
    obtain ⟨s, hs⟩ := Option.ne_none_iff_exists'.1 hu
    obtain ⟨v, hv⟩ := h s
    refine ⟨v, ?_⟩
    rw [accepts_eq_outcome, List.map_append, outcome_append, hs, Option.bind_some, hv,
      Option.getD_some]
  · intro h s
    obtain ⟨u, hu⟩ := hreach s
    obtain ⟨v, hv⟩ := h u (by rw [hu]; exact Option.some_ne_none s)
    rw [accepts_eq_outcome, List.map_append, outcome_append, hu, Option.bind_some] at hv
    refine ⟨v, ?_⟩
    cases hout : d.outcome s (v.map Symbol.toByte) with
    | none =>
        rw [hout] at hv
        cases hv
    | some b =>
        rw [hout, Option.getD_some] at hv
        rw [hv]

/-- A state that does not accept and that nothing leads on from is dead. -/
theorem not_live_of_deadEnd {s : Fin d.size} (hend : (d.state s).isDeadEnd = true)
    (hrejects : (d.state s).accepting = false) : ¬ d.Live s := by
  intro hlive
  obtain ⟨w, hw⟩ := hlive
  cases w with
  | nil =>
      have hacc : some (d.state s).accepting = some true := hw
      rw [hrejects] at hacc
      cases hacc
  | cons a w =>
      have hnext : d.next s a.toByte = none := by
        unfold Dfa.next State.target?
        rw [List.isEmpty_iff.1 hend]
        rfl
      rw [List.map_cons, outcome_cons, hnext] at hw
      cases hw

end Dfa

/-! ## §2. Compiled automata. -/

/-- Where a word leads in the merged automaton, it leads in the nodes. -/
theorem Nfa.runFrom_minimize_eq_none_iff (nfa : Nfa) (w : Word) :
    nfa.determinize.minimize.runFrom nfa.determinize.minimize.start w = none ↔
      nfa.runFrom nfa.initial w = none := by
  have hq := Dfa.quotientMap_minimize (Dfa.separate_determinize nfa)
  have hrun := hq.runFrom_eq nfa.determinize.start w
  rw [hq.start] at hrun
  rw [hrun, ← nfa.map_labelOf_runFrom_start]
  exact Option.map_eq_none_iff.trans Option.map_eq_none_iff.symm

/-- **A compiled automaton has no dead state** exactly if every word that some
run of nodes survives can be continued to a word that is matched; and this is
so as soon as every class of the pattern holds a symbol. -/
theorem compile_live_iff {pattern : String} {nfa : Nfa} {d : Dfa}
    (hnfa : Nfa.ofPattern? pattern = .ok nfa) (hd : compile pattern = .ok d) :
    ((∀ s, d.Live s) ↔
      ∀ u : List Symbol, nfa.runFrom nfa.initial (u.map Symbol.toByte) ≠ none →
        ∃ v : List Symbol, nfa.accepts ((u ++ v).map Symbol.toByte) = true) ∧
    ((∀ i c, (nfa.node i).edge = .cls c → ∃ a : Symbol, c.admits a.toByte = true) →
      ∀ s, d.Live s) := by
  refine ⟨?_, fun h => (reduced_of_compile hnfa hd (Nfa.classesInhabited h)).live⟩
  obtain ⟨nfa', hnfa', hmin⟩ := compile_eq_ok_iff.1 hd
  rw [hnfa] at hnfa'
  cases hnfa'
  subst hmin
  have hq := Dfa.quotientMap_minimize (Dfa.separate_determinize nfa)
  have hreach : ∀ s, nfa.determinize.minimize.Reachable s := by
    intro i
    obtain ⟨s, hs⟩ := hq.surjective i
    exact hs ▸ hq.reachable (nfa.reachable_determinize s)
  rw [Dfa.forall_live_iff hreach]
  simp only [ne_eq, Nfa.runFrom_minimize_eq_none_iff, hq.accepts_eq, nfa.accepts_determinize]

/-- The second alternative can never be completed, since its class leaves out
the whole alphabet.  Its first character leads to a state all the same. -/
theorem compile_dead_state :
    ∃ d s, compile "a|b[^\x00-~]" = .ok d ∧ d.accepts [97] = true ∧ d.next d.start 98 = some s ∧
      ¬ d.Live s := by
  have hcheck : (compile "a|b[^\x00-~]").toOption.any (fun d =>
      d.accepts [97] && (d.next d.start 98).any fun s =>
        (d.state s).isDeadEnd && !(d.state s).accepting) = true := by
    rw [toOption_compile]
    decide +kernel
  obtain ⟨d, hd, hcheck⟩ := exists_of_compile_any hcheck
  obtain ⟨haccepts, hdead⟩ := Bool.and_eq_true_iff.1 hcheck
  obtain ⟨s, hs, hend⟩ := (Option.any_eq_true _ _).1 hdead
  obtain ⟨hend, hrejects⟩ := Bool.and_eq_true_iff.1 hend
  exact ⟨d, s, hd, haccepts, hs, Dfa.not_live_of_deadEnd hend (Bool.not_eq_true' _ ▸ hrejects)⟩

theorem compile_live_iff_alternatives :
    ∃ nfa d, Nfa.ofPattern? "[ab]c|b[^-x]" = .ok nfa ∧ compile "[ab]c|b[^-x]" = .ok d ∧
      (∀ i c, (nfa.node i).edge = .cls c → ∃ a : Symbol, c.admits a.toByte = true) ∧
      (∀ s, d.Live s) ∧
      ∀ u : List Symbol, nfa.runFrom nfa.initial (u.map Symbol.toByte) ≠ none →
        ∃ v : List Symbol, nfa.accepts ((u ++ v).map Symbol.toByte) = true := by
  have hok : (match Nfa.ofPattern? "[ab]c|b[^-x]" with
      | .ok nfa => nfa.nodes.toList.all fun n => n.edge.holdsSymbol
      | .error _ => false) = true := by decide +kernel
  cases hnfa : Nfa.ofPattern? "[ab]c|b[^-x]" with
  | error e =>
      rw [hnfa] at hok
      cases hok
  | ok nfa =>
      rw [hnfa] at hok
      have hclasses := Nfa.classes_of_holdsSymbol hok
      have hd : compile "[ab]c|b[^-x]" = .ok nfa.determinize.minimize :=
        compile_eq_ok_iff.2 ⟨nfa, hnfa, rfl⟩
      obtain ⟨hiff, hlive⟩ := compile_live_iff hnfa hd
      exact ⟨nfa, _, rfl, hd, hclasses, hlive hclasses, hiff.1 (hlive hclasses)⟩

end LineScan
