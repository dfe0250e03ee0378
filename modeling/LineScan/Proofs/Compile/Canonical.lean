/-
  LineScan.Proofs.Compile.Canonical
  ─────────────────────────────────
  **THE WORDS DECIDE THE AUTOMATON.**

  Two patterns that match the same words are compiled to automata that differ
  in the numbers of their states only, however differently the patterns are
  written: both automata are reduced.  As for minimality, the classes of both
  patterns must hold a symbol.
-/
import LineScan.Proofs.Compile.Minimal
import LineScan.Proofs.Dfa.Canonical

namespace LineScan

/-- **Compiling is canonical up to a renaming of states**: if the automata of
two patterns accept the same words, a bijection between their states keeps
the start, acceptance and all transitions. -/
theorem compile_canonical {p q : String} {nfa nfa' : Nfa} {d d' : Dfa}
    (hp : Nfa.ofPattern? p = .ok nfa) (hd : compile p = .ok d)
    (hq : Nfa.ofPattern? q = .ok nfa') (hd' : compile q = .ok d')
    (hclasses : ∀ i c, (nfa.node i).edge = .cls c → ∃ a : Symbol, c.admits a.toByte = true)
    (hclasses' : ∀ i c, (nfa'.node i).edge = .cls c → ∃ a : Symbol, c.admits a.toByte = true)
    (h : ∀ w : Word, d.accepts w = d'.accepts w) :
    ∃ f : Fin d.size ≃ Fin d'.size, f d.start = d'.start ∧
      (∀ s, (d'.state (f s)).accepting = (d.state s).accepting) ∧
      ∀ s b, d'.next (f s) b = (d.next s b).map f := by
  have hred := reduced_of_compile hp hd (Nfa.classesInhabited hclasses)
  have hred' := reduced_of_compile hq hd' (Nfa.classesInhabited hclasses')
  obtain ⟨f, hf⟩ := hred.exists_renaming hred' h
  exact ⟨f, hf.start, hf.accepting, hf.next⟩

/-- What a compiled automaton accepts is what its pattern matches. -/
theorem accepts_of_compile {pattern : String} {rules : List Rule} {d : Dfa}
    (hrules : readRules pattern = .ok rules) (hd : compile pattern = .ok d) (w : Word) :
    d.accepts w = true ↔ w ∈ Rule.languageOf rules := by
  obtain ⟨nfa, hnfa, hmin⟩ := compile_eq_ok_iff.1 hd
  obtain ⟨nfa', hnfa', haccepts⟩ := Nfa.exists_ofPattern hrules
  rw [hnfa] at hnfa'
  cases hnfa'
  subst hmin
  rw [(Dfa.quotientMap_minimize (Dfa.separate_determinize nfa)).accepts_eq, ← haccepts,
    nfa.accepts_determinize]

/-- An iteration and its unrolled form, which have different nodes. -/
theorem compile_canonical_unrolled :
    ∃ nfa nfa' d d', Nfa.ofPattern? "[ab]+" = .ok nfa ∧ compile "[ab]+" = .ok d ∧
      Nfa.ofPattern? "[ab][ab]*" = .ok nfa' ∧ compile "[ab][ab]*" = .ok d' ∧
      nfa.size ≠ nfa'.size ∧
      (∀ i c, (nfa.node i).edge = .cls c → ∃ a : Symbol, c.admits a.toByte = true) ∧
      (∀ i c, (nfa'.node i).edge = .cls c → ∃ a : Symbol, c.admits a.toByte = true) ∧
      (∀ w : Word, d.accepts w = d'.accepts w) ∧
      ∃ f : Fin d.size ≃ Fin d'.size, f d.start = d'.start ∧
        (∀ s, (d'.state (f s)).accepting = (d.state s).accepting) ∧
        ∀ s b, d'.next (f s) b = (d.next s b).map f := by
  let ab : Regex := .cls ⟨BitSet.ofList [97, 98], false⟩
  have hrules : readRules "[ab]+" = .ok [⟨false, .plus ab, false⟩] := by decide +kernel
  have hrules' : readRules "[ab][ab]*" = .ok [⟨false, .cat ab (.star ab), false⟩] := by
    decide +kernel
  obtain ⟨nfa, hnfa, _⟩ := Nfa.exists_ofPattern hrules
  obtain ⟨nfa', hnfa', _⟩ := Nfa.exists_ofPattern hrules'
  have hcheck : (match Nfa.ofPattern? "[ab]+", Nfa.ofPattern? "[ab][ab]*" with
      | .ok nfa, .ok nfa' => nfa.size != nfa'.size &&
          (nfa.nodes.toList.all fun n => n.edge.holdsSymbol) &&
          nfa'.nodes.toList.all fun n => n.edge.holdsSymbol
      | _, _ => false) = true := by decide +kernel
  rw [hnfa, hnfa'] at hcheck
  simp only [Bool.and_eq_true, bne_iff_ne] at hcheck
  obtain ⟨⟨hsize, hholds⟩, hholds'⟩ := hcheck
  have hd : compile "[ab]+" = .ok nfa.determinize.minimize := compile_eq_ok_iff.2 ⟨nfa, hnfa, rfl⟩
  have hd' : compile "[ab][ab]*" = .ok nfa'.determinize.minimize :=
    compile_eq_ok_iff.2 ⟨nfa', hnfa', rfl⟩
  have haccepts : ∀ w : Word, nfa.determinize.minimize.accepts w =
      nfa'.determinize.minimize.accepts w := by
    intro w
    -- both languages are that of the class, followed by its iteration
    rw [Bool.eq_iff_iff, accepts_of_compile hrules hd, accepts_of_compile hrules' hd']
    rfl
  have hclasses := Nfa.classes_of_holdsSymbol hholds
  have hclasses' := Nfa.classes_of_holdsSymbol hholds'
  exact ⟨nfa, nfa', _, _, hnfa, hd, hnfa', hd', hsize, hclasses, hclasses', haccepts,
    compile_canonical hnfa hd hnfa' hd' hclasses hclasses' haccepts⟩

end LineScan
