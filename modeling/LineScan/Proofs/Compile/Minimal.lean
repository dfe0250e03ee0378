/-
  LineScan.Proofs.Compile.Minimal
  ───────────────────────────────
  **COMPILED AUTOMATA ARE AS SMALL AS POSSIBLE.**

  The nodes that a pattern is built from lead onward to a terminal node, so
  the automaton compiled from it is reduced, and no machine that accepts the
  same words has fewer states.  The one thing that may stand in the way is a
  class that holds no symbol: behind it a run is stuck, and the states that
  wait for it are dead.
-/
import LineScan.Proofs.Dfa.Minimality
import LineScan.Proofs.Dfa.WellFormed
import LineScan.Proofs.Nfa.OfPattern

namespace LineScan

/-! ## §1. Reduced results. -/

/-- What a pattern is compiled to. -/
theorem compile_eq_ok_iff {pattern : String} {d : Dfa} :
    compile pattern = .ok d ↔
      ∃ nfa, Nfa.ofPattern? pattern = .ok nfa ∧ nfa.determinize.minimize = d := by
  unfold compile
  cases h : Nfa.ofPattern? pattern with
  | error e =>
      constructor
      · intro hd
        cases hd
      · intro hd
        obtain ⟨nfa, hnfa, _⟩ := hd
        cases hnfa
  | ok nfa =>
      constructor
      · intro hd
        cases hd
        exact ⟨nfa, rfl, rfl⟩
      · intro hd
        obtain ⟨nfa', hnfa, hd⟩ := hd
        cases hnfa
        exact congrArg Except.ok hd

/-- What a pattern is compiled to, put together without sorting: in this form it
can be evaluated. -/
theorem toOption_compile (pattern : String) : (compile pattern).toOption =
    (Nfa.ofPattern? pattern).toOption.map fun nfa => nfa.determinize.minimizeAsMentioned := by
  unfold compile
  cases Nfa.ofPattern? pattern with
  | error e => rfl
  | ok nfa => exact congrArg some (Dfa.minimize_eq_minimizeAsMentioned _)

/-- A check of what a pattern is compiled to finds an automaton. -/
theorem exists_of_compile_any {pattern : String} {check : Dfa → Bool}
    (h : (compile pattern).toOption.any check = true) :
    ∃ d, compile pattern = .ok d ∧ check d = true := by
  cases hd : compile pattern with
  | error e =>
      rw [hd] at h
      cases h
  | ok d =>
      rw [hd] at h
      exact ⟨d, rfl, h⟩

/-- The states of a compiled automaton are in order. -/
theorem wellFormed_of_compile {pattern : String} {d : Dfa} (h : compile pattern = .ok d) :
    d.WellFormed := by
  obtain ⟨nfa, _, rfl⟩ := compile_eq_ok_iff.1 h
  exact (Dfa.wellFormed_determinize nfa).minimize

/-- **Compiling gives a reduced automaton** when every class of the pattern
holds a symbol. -/
theorem reduced_of_compile {pattern : String} {nfa : Nfa} {d : Dfa}
    (hnfa : Nfa.ofPattern? pattern = .ok nfa) (hd : compile pattern = .ok d)
    (hclasses : nfa.graph.ClassesInhabited) : d.Reduced := by
  obtain ⟨nfa', hnfa', hmin⟩ := compile_eq_ok_iff.1 hd
  rw [hnfa] at hnfa'
  cases hnfa'
  subst hmin
  exact nfa.reduced_minimize_determinize hclasses (Nfa.halts_of_ofPattern hnfa)

theorem Nfa.classesInhabited {nfa : Nfa}
    (h : ∀ i c, (nfa.node i).edge = .cls c → ∃ a : Symbol, c.admits a.toByte = true) :
    nfa.graph.ClassesInhabited := by
  intro i n c hn he
  cases hn
  exact h i c he

/-! ## §2. Automata as machines. -/

/-- An automaton as a machine whose states are its positions. -/
def Dfa.machine (d : Dfa) : Machine (Fin d.size) where
  start := d.start
  next s a := d.next s a.toByte
  accepting s := (d.state s).accepting

theorem Dfa.runFrom_machine (d : Dfa) (s : Fin d.size) (w : List Symbol) :
    d.machine.runFrom s w = d.runFrom s (w.map Symbol.toByte) := by
  induction w generalizing s with
  | nil => rfl
  | cons a w ih =>
      have hnext : d.machine.next s a = d.next s a.toByte := rfl
      rw [List.map_cons, Dfa.runFrom_cons, Machine.runFrom, hnext]
      cases d.next s a.toByte with
      | none => rfl
      | some t => exact ih t

theorem Dfa.accepts_machine (d : Dfa) (w : List Symbol) :
    d.machine.accepts w = d.accepts (w.map Symbol.toByte) := by
  have hstart : d.machine.start = d.start := rfl
  unfold Machine.accepts Machine.acceptsFrom Dfa.accepts
  rw [d.runFrom_machine, hstart]
  cases d.runFrom d.start (w.map Symbol.toByte) <;> rfl

/-! ## §3. Minimality. -/

/-- **A compiled automaton has as few states as possible**: every class in its
pattern holding a symbol, a deterministic automaton over the symbols that
accepts the same words, its transitions total or not, has at least as many
states. -/
theorem compile_minimal {pattern : String} {nfa : Nfa} {d : Dfa}
    (hnfa : Nfa.ofPattern? pattern = .ok nfa) (hd : compile pattern = .ok d)
    (hclasses : ∀ i c, (nfa.node i).edge = .cls c → ∃ a : Symbol, c.admits a.toByte = true)
    {σ : Type*} [Fintype σ] (M : Machine σ)
    (hM : ∀ w : List Symbol, M.accepts w = d.accepts (w.map Symbol.toByte)) :
    d.size ≤ Fintype.card σ :=
  (reduced_of_compile hnfa hd (Nfa.classesInhabited hclasses)).size_le_card hM

/-- Whether the edge can be passed on some symbol, if it is a class. -/
def Edge.holdsSymbol : Edge → Bool
  | .cls c => alphabet.any fun a => c.admits a.toByte
  | _ => true

/-- Every class of an automaton holds a symbol if those of its nodes, looked
at one by one, do. -/
theorem Nfa.classes_of_holdsSymbol {nfa : Nfa}
    (h : (nfa.nodes.toList.all fun n => n.edge.holdsSymbol) = true) (i : Fin nfa.size)
    (c : CharClass) (hi : (nfa.node i).edge = .cls c) : ∃ a : Symbol, c.admits a.toByte = true := by
  have hmem : nfa.node i ∈ nfa.nodes.toList := by
    rw [Vector.mem_toList_iff]
    exact Vector.getElem_mem i.isLt
  have hholds := List.all_eq_true.1 h _ hmem
  rw [hi] at hholds
  obtain ⟨a, _, ha⟩ := List.any_eq_true.1 hholds
  exact ⟨a, ha⟩

theorem compile_minimal_alternatives :
    ∃ nfa d, Nfa.ofPattern? "[ab]c|b[^-x]" = .ok nfa ∧ compile "[ab]c|b[^-x]" = .ok d ∧
      (∀ i c, (nfa.node i).edge = .cls c → ∃ a : Symbol, c.admits a.toByte = true) ∧
      (∀ w : List Symbol, nfa.determinize.machine.accepts w = d.accepts (w.map Symbol.toByte)) ∧
      d.size ≤ Fintype.card (Fin nfa.determinize.size) := by
  have hok : (match Nfa.ofPattern? "[ab]c|b[^-x]" with
      | .ok nfa => nfa.nodes.toList.all fun n => n.edge.holdsSymbol
      | .error _ => false) = true := by decide +kernel
  cases hnfa : Nfa.ofPattern? "[ab]c|b[^-x]" with
  | error e =>
      rw [hnfa] at hok
      cases hok
  | ok nfa =>
      rw [hnfa] at hok
      have hclasses := Nfa.classes_of_holdsSymbol hok
      have hd : compile "[ab]c|b[^-x]" = .ok nfa.determinize.minimize :=
        compile_eq_ok_iff.2 ⟨nfa, hnfa, rfl⟩
      have hq := Dfa.quotientMap_minimize (Dfa.separate_determinize nfa)
      have hM : ∀ w : List Symbol, nfa.determinize.machine.accepts w =
          nfa.determinize.minimize.accepts (w.map Symbol.toByte) := by
        intro w
        exact (nfa.determinize.accepts_machine w).trans (hq.accepts_eq _).symm
      exact ⟨nfa, _, rfl, hd, hclasses, hM, compile_minimal hnfa hd hclasses _ hM⟩

end LineScan
