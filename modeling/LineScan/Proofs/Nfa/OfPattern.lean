/-
  LineScan.Proofs.Nfa.OfPattern
  ─────────────────────────────
  **THE AUTOMATON OF A PATTERN RECOGNISES ITS LANGUAGE.**

  The chain from a pattern to its automaton has three links, each with a
  theorem of its own:

      pattern → rules       what is read derives            (Soundness)
      rules   → nodes       fragments span languages        (RuleChain)
      nodes   → automaton   closing gaps keeps the language (Finish)

  The language is that of the grammar, which assigns no other one to the same
  tokens.
-/
import LineScan.Compile
import LineScan.Proofs.Nfa.RuleChain
import LineScan.Proofs.Pattern.Completeness

namespace LineScan

/-- The automaton of a pattern is that of its rules. -/
theorem Nfa.ofPattern?_eq_ok {pattern : String} {rules : List Rule} {nfa : Nfa}
    (h : readRules pattern = .ok rules) (hnfa : Nfa.ofRules? rules = .ok nfa) :
    Nfa.ofPattern? pattern = .ok nfa := by
  unfold Nfa.ofRules? at hnfa
  cases hasm : Assembly.ofRules? rules with
  | error e =>
      rw [hasm] at hnfa
      cases hnfa
  | ok asm =>
      rw [hasm] at hnfa
      have hfinish : asm.finish = .ok nfa := hnfa
      simp only [Nfa.ofPattern?, rulesOf, assemblyOf, nfaOf, h, hasm, hfinish, Except.mapError,
        bind, Except.bind]

/-- A text that has no rules has no automaton, and the reason is the same. -/
theorem Nfa.ofPattern?_eq_error {pattern : String} {refusal : Refusal}
    (h : readRules pattern = .error refusal) :
    Nfa.ofPattern? pattern = .error (.pattern refusal.error) := by
  simp only [Nfa.ofPattern?, rulesOf, h, Except.mapError, bind, Except.bind]

/-- An automaton of a pattern comes from its rules. -/
theorem Nfa.exists_rules_of_ofPattern {pattern : String} {nfa : Nfa}
    (h : Nfa.ofPattern? pattern = .ok nfa) :
    ∃ rules, readRules pattern = .ok rules ∧ Nfa.ofRules? rules = .ok nfa := by
  cases hread : readRules pattern with
  | error refusal =>
      rw [Nfa.ofPattern?_eq_error hread] at h
      cases h
  | ok rules =>
      obtain ⟨hne, _⟩ := readRules_sound hread
      cases rules with
      | nil => exact absurd rfl hne
      | cons r rest =>
          obtain ⟨nfa', hnfa, _⟩ := Nfa.exists_ofRules r rest
          rw [Nfa.ofPattern?_eq_ok hread hnfa] at h
          cases h
          exact ⟨_, rfl, hnfa⟩

/-- The automaton of a pattern exists as soon as the pattern has rules, and
leads onward to a terminal node from every node. -/
theorem Nfa.exists_ofPattern_halts {pattern : String} {rules : List Rule}
    (h : readRules pattern = .ok rules) :
    ∃ nfa, Nfa.ofPattern? pattern = .ok nfa ∧
      (∀ w, nfa.accepts w = true ↔ w ∈ Rule.languageOf rules) ∧ ∀ i, nfa.graph.Halts i := by
  obtain ⟨hne, _⟩ := readRules_sound h
  cases rules with
  | nil => exact absurd rfl hne
  | cons r rules =>
      obtain ⟨nfa, hnfa, hrest⟩ := Nfa.exists_ofRules r rules
      exact ⟨nfa, Nfa.ofPattern?_eq_ok h hnfa, hrest⟩

/-- The automaton of a pattern exists as soon as the pattern has rules. -/
theorem Nfa.exists_ofPattern {pattern : String} {rules : List Rule}
    (h : readRules pattern = .ok rules) :
    ∃ nfa, Nfa.ofPattern? pattern = .ok nfa ∧
      ∀ w, nfa.accepts w = true ↔ w ∈ Rule.languageOf rules := by
  obtain ⟨nfa, hnfa, haccepts, _⟩ := Nfa.exists_ofPattern_halts h
  exact ⟨nfa, hnfa, haccepts⟩

/-- First references lead from every node of the automaton of a pattern to a
terminal one. -/
theorem Nfa.halts_of_ofPattern {pattern : String} {nfa : Nfa}
    (h : Nfa.ofPattern? pattern = .ok nfa) (i : Fin nfa.size) : nfa.graph.Halts i := by
  obtain ⟨rules, hread, _⟩ := Nfa.exists_rules_of_ofPattern h
  obtain ⟨nfa', hnfa, _, hhalts⟩ := Nfa.exists_ofPattern_halts hread
  rw [h] at hnfa
  cases hnfa
  exact hhalts i

/-- **The automaton of a pattern accepts exactly the words that the grammar
gives the pattern.** -/
theorem Nfa.ofPattern_recognizes {pattern : String} {nfa : Nfa}
    (h : Nfa.ofPattern? pattern = .ok nfa) :
    ∃ (ts : List Token) (L : Language UInt8), itemsOf pattern = ts.map Item.token ∧
      MachineText ts L ∧ (∀ M, MachineText ts M → M = L) ∧
      ∀ w : Word, nfa.accepts w = true ↔ w ∈ L := by
  cases hread : readRules pattern with
  | error e =>
      simp only [Nfa.ofPattern?, rulesOf, hread, Except.mapError, bind, Except.bind] at h
      cases h
  | ok rules =>
      obtain ⟨_, ts, hts, htext⟩ := readRules_sound hread
      obtain ⟨nfa', hnfa, haccepts⟩ := Nfa.exists_ofPattern hread
      rw [h] at hnfa
      cases hnfa
      exact ⟨ts, _, hts, htext, fun M hM => htext.unique hM (proper_of_itemsOf hts), haccepts⟩

theorem Nfa.ofPattern_recognizes_nested :
    ∃ nfa, Nfa.ofPattern? "((a*)+b?|c)*" = .ok nfa ∧
      ∃ (ts : List Token) (L : Language UInt8),
        itemsOf "((a*)+b?|c)*" = ts.map Item.token ∧ MachineText ts L ∧
        (∀ M, MachineText ts M → M = L) ∧ ∀ w : Word, nfa.accepts w = true ↔ w ∈ L := by
  have hok : (Nfa.ofPattern? "((a*)+b?|c)*").isOk = true := by decide +kernel
  cases h : Nfa.ofPattern? "((a*)+b?|c)*" with
  | error e =>
      rw [h] at hok
      cases hok
  | ok nfa => exact ⟨nfa, rfl, Nfa.ofPattern_recognizes h⟩

/-- A text is a pattern: it holds no foreign byte, and the grammar derives its
tokens. -/
def IsPattern (text : String) : Prop :=
  ∃ (ts : List Token) (L : Language UInt8), itemsOf text = ts.map Item.token ∧ MachineText ts L

/-- What the reader reads are the patterns. -/
theorem exists_readRules_iff {text : String} :
    (∃ rules, readRules text = .ok rules) ↔ IsPattern text := by
  constructor
  · intro h
    obtain ⟨rules, hrules⟩ := h
    obtain ⟨_, ts, hts, htext⟩ := readRules_sound hrules
    exact ⟨ts, _, hts, htext⟩
  · intro h
    obtain ⟨ts, L, hts, htext⟩ := h
    obtain ⟨rules, hrules, _⟩ := readRules_complete hts htext
    exact ⟨rules, hrules⟩

/-- **Exactly the texts that the grammar derives have an automaton**; every
other one is refused with a reason that concerns the text. -/
theorem Nfa.ofPattern_iff_isPattern (text : String) :
    ((∃ nfa, Nfa.ofPattern? text = .ok nfa) ↔ IsPattern text) ∧
      ((∃ e, Nfa.ofPattern? text = .error (.pattern e)) ↔ ¬ IsPattern text) := by
  rw [← exists_readRules_iff]
  cases h : readRules text with
  | ok rules =>
      obtain ⟨nfa, hnfa, _⟩ := Nfa.exists_ofPattern h
      simp [hnfa]
  | error refusal => simp [Nfa.ofPattern?_eq_error h]

end LineScan
