/-
  LineScan.Proofs.CommandLine.Runs
  ────────────────────────────────
  **PATTERNS ARE TREATED INDEPENDENTLY.**

  Runs form a monoid: `Outcome.andThen` puts one behind the other, and
  `Outcome.nothing` is the run on no pattern.  The run on several patterns is
  the product of the runs on each of them (`runPatterns_cons`), so each of its
  outputs is theirs in order, and its exit code is their maximum:

      refused pattern     code 1    no output    its diagnostic
      accepted pattern    code 0    its report   no diagnostic

  There is no third kind, since no text makes compiling misuse a number.
  `run_independent` says this of whole command lines: the run on a single
  pattern is that of the options among the arguments, with the pattern behind
  them.  A report is told by the names on the list of what is printed, each of
  which stands for a text (`StandsFor`), and by what the other options ask for.
-/
import LineScan.Proofs.CommandLine.Settings
import LineScan.Proofs.Pattern.Prefix

namespace LineScan.CommandLine

/-! ## §1. Runs as a monoid. -/

namespace Outcome

theorem nothing_andThen (a : Outcome) : nothing.andThen a = a := by
  simp [nothing, andThen]

theorem andThen_nothing (a : Outcome) : a.andThen nothing = a := by
  simp [nothing, andThen]

theorem andThen_assoc (a b c : Outcome) : (a.andThen b).andThen c = a.andThen (b.andThen c) := by
  simp [andThen, Nat.max_assoc, String.append_assoc]

end Outcome

section single

variable (emphasis : Emphasis) (o : Options)

theorem foldl_andThen (patterns : List String) (done : Outcome) :
    patterns.foldl (fun done pattern => done.andThen (runPattern emphasis o pattern)) done =
      done.andThen (runPatterns emphasis o patterns) := by
  induction patterns generalizing done with
  | nil => exact done.andThen_nothing.symm
  | cons pattern patterns ih =>
      rw [runPatterns, List.foldl_cons, List.foldl_cons, ih, ih, Outcome.nothing_andThen,
        Outcome.andThen_assoc]

/-- **The first pattern, then the others.** -/
theorem runPatterns_cons (pattern : String) (patterns : List String) :
    runPatterns emphasis o (pattern :: patterns) =
      (runPattern emphasis o pattern).andThen (runPatterns emphasis o patterns) := by
  rw [runPatterns, List.foldl_cons, Outcome.nothing_andThen]
  exact foldl_andThen emphasis o patterns _

theorem runPatterns_singleton (pattern : String) :
    runPatterns emphasis o [pattern] = runPattern emphasis o pattern := by
  rw [runPatterns_cons]
  exact Outcome.andThen_nothing _

/-- The outputs are put one behind the other. -/
theorem out_runPatterns (patterns : List String) :
    (runPatterns emphasis o patterns).out =
      String.join (patterns.map fun pattern => (runPattern emphasis o pattern).out) := by
  induction patterns with
  | nil => rfl
  | cons pattern patterns ih =>
      rw [runPatterns_cons, List.map_cons, String.join_cons, ← ih]
      rfl

/-- So are the diagnostics. -/
theorem err_runPatterns (patterns : List String) :
    (runPatterns emphasis o patterns).err =
      String.join (patterns.map fun pattern => (runPattern emphasis o pattern).err) := by
  induction patterns with
  | nil => rfl
  | cons pattern patterns ih =>
      rw [runPatterns_cons, List.map_cons, String.join_cons, ← ih]
      rfl

/-! ## §2. One pattern. -/

variable {pattern : String}

/-- **A refused pattern** leaves its diagnostic, and nothing else. -/
theorem exists_runPattern_of_error {e : CompileError} (h : Nfa.ofPattern? pattern = .error e) :
    ∃ error, e = .pattern error ∧
      runPattern emphasis o pattern = ⟨1, "", error.render emphasis pattern ++ "\n"⟩ := by
  obtain ⟨refusal, _, rfl⟩ := Nfa.exists_refusal_of_ofPattern h
  refine ⟨refusal.error, rfl, ?_⟩
  rw [runPattern, h]

/-- **An accepted pattern** leaves its report, and nothing else. -/
theorem runPattern_of_ok {nfa : Nfa} (h : Nfa.ofPattern? pattern = .ok nfa) :
    runPattern emphasis o pattern = ⟨0, report emphasis o pattern nfa, ""⟩ := by
  rw [runPattern, h]

theorem code_runPattern (pattern : String) :
    (runPattern emphasis o pattern).code ≤ 1 ∧
      ((runPattern emphasis o pattern).code = 1 ↔ ∃ e, Nfa.ofPattern? pattern = .error e) := by
  cases h : Nfa.ofPattern? pattern with
  | error e =>
      obtain ⟨error, _, hrun⟩ := exists_runPattern_of_error emphasis o h
      rw [hrun]
      exact ⟨Nat.le_refl 1, fun _ => ⟨e, rfl⟩, fun _ => rfl⟩
  | ok nfa =>
      rw [runPattern_of_ok emphasis o h]
      refine ⟨Nat.zero_le 1, ?_, ?_⟩
      · intro hcode
        cases hcode
      · rintro ⟨e, he⟩
        cases he

/-- **The exit code** is that of some pattern. -/
theorem code_runPatterns (patterns : List String) :
    (runPatterns emphasis o patterns).code ≤ 1 ∧
      ((runPatterns emphasis o patterns).code = 1 ↔
        ∃ pattern ∈ patterns, ∃ e, Nfa.ofPattern? pattern = .error e) := by
  induction patterns with
  | nil =>
      refine ⟨Nat.zero_le 1, ?_, ?_⟩
      · intro hcode
        cases hcode
      · rintro ⟨pattern, hpattern, _⟩
        cases hpattern
  | cons pattern patterns ih =>
      obtain ⟨hle, hone⟩ := ih
      obtain ⟨hle', hone'⟩ := code_runPattern emphasis o pattern
      have hcode : (runPatterns emphasis o (pattern :: patterns)).code =
          max (runPattern emphasis o pattern).code (runPatterns emphasis o patterns).code := by
        rw [runPatterns_cons]
        rfl
      rw [hcode]
      refine ⟨by omega, ?_⟩
      rw [List.exists_mem_cons_iff, ← hone, ← hone']
      omega

end single

/-! ## §3. Command lines. -/

/-- **The run on a single pattern** with the options among the arguments. -/
def runAlone (emphasis : Emphasis) (args : List String) (pattern : String) : Outcome :=
  run emphasis (optionArguments none args ++ ["--", pattern])

/-- The line above what is printed for a pattern; its first word stands out on a
terminal. -/
def headingOf (pattern : String) : Emphasis → String
  | .plain => "pattern: " ++ pattern ++ "\n"
  | .colored => "\x1b[1;32mpattern:\x1b[0m " ++ pattern ++ "\n"

/-- **What a name on the list of what is printed stands for**, given the two
automata of the pattern. -/
inductive StandsFor (o : Options) (nfa : Nfa) (d : Dfa) : String → String → Prop where
  /-- The nodes of the non-deterministic automaton. -/
  | nfa : StandsFor o nfa d "nfa" nfa.listing
  /-- The graph of the deterministic one. -/
  | graph : StandsFor o nfa d "graph" (d.graph o.name)
  /-- Its full table, in the format that is asked for. -/
  | table : StandsFor o nfa d "table" (d.fullTable ⟨o.name, o.format⟩)
  /-- Its compressed table. -/
  | pairs : StandsFor o nfa d "pairs" (d.packedTable ⟨o.name, o.threshold, o.numeric⟩)

/-- Every part is what its name stands for. -/
theorem standsFor_of_ofName {o : Options} {nfa : Nfa} {d : Dfa} {name : String} {part : Part}
    (h : Part.ofName? name = some part) : StandsFor o nfa d name (part.render o nfa d) := by
  unfold Part.ofName? at h
  split at h <;> cases h
  · exact .nfa
  · exact .graph
  · exact .table
  · exact .pairs

theorem forall₂_standsFor {o : Options} {nfa : Nfa} {d : Dfa} {names : List String}
    {parts : List Part} (h : names.mapM Part.ofName? = some parts) :
    List.Forall₂ (StandsFor o nfa d) names (parts.map fun part => part.render o nfa d) := by
  induction names generalizing parts with
  | nil =>
      cases h
      exact .nil
  | cons name names ih =>
      rw [List.mapM_cons] at h
      obtain ⟨part, hpart, h⟩ := Option.bind_eq_some_iff.1 h
      obtain ⟨parts, hparts, h⟩ := Option.bind_eq_some_iff.1 h
      cases h
      exact .cons (standsFor_of_ofName hpart) (ih hparts)

theorem green_eq_headingOf (emphasis : Emphasis) (pattern : String) :
    emphasis.green "pattern:" ++ " " ++ pattern ++ "\n" = headingOf pattern emphasis := by
  have hword : emphasis.green "pattern:" ++ " " =
      match emphasis with
      | .plain => "pattern: "
      | .colored => "\x1b[1;32mpattern:\x1b[0m " := by
    cases emphasis <;> decide
  rw [hword]
  cases emphasis <;> rfl

/-- The report on a pattern: its heading, then the parts with an empty line
behind each. -/
theorem report_eq (emphasis : Emphasis) (o : Options) (pattern : String) (nfa : Nfa) :
    report emphasis o pattern nfa = headingOf pattern emphasis ++
      String.join ((o.parts.map fun part => part.render o nfa
        (if o.minimize then nfa.determinize.minimize else nfa.determinize)).map (· ++ "\n")) := by
  rw [report, green_eq_headingOf, List.map_map]
  rfl

/-- **What a command line with several patterns comes down to**: the runs on
each of them, none of which depends on the others. -/
structure Independent (emphasis : Emphasis) (args : List String) (o : Options)
    (patterns : List String) : Prop where
  /-- The options are those that the settings among the arguments ask for. -/
  asked : Asked (settings none args) o
  /-- They are the same for all patterns. -/
  same_options : ∀ further, further ≠ [] →
    requestOf (optionArguments none args ++ "--" :: further) = .run o further
  /-- What is printed is what they print, in order. -/
  out : (run emphasis args).out =
    String.join (patterns.map fun pattern => (runAlone emphasis args pattern).out)
  /-- What is reported is what they report, in order. -/
  err : (run emphasis args).err =
    String.join (patterns.map fun pattern => (runAlone emphasis args pattern).err)
  /-- The exit code is 1 if some pattern is refused. -/
  code_one : (run emphasis args).code = 1 ↔
    ∃ pattern ∈ patterns, ∃ e, Nfa.ofPattern? pattern = .error e
  /-- The exit code is 0 if none is. -/
  code_zero : (run emphasis args).code = 0 ↔
    ∀ pattern ∈ patterns, ∃ nfa, Nfa.ofPattern? pattern = .ok nfa
  /-- A refused pattern prints nothing and reports its diagnostic. -/
  refused : ∀ pattern e, Nfa.ofPattern? pattern = .error e → ∃ error, e = .pattern error ∧
    (runAlone emphasis args pattern).out = "" ∧
    (runAlone emphasis args pattern).err = error.render emphasis pattern ++ "\n"
  /-- An accepted pattern prints its heading and what is asked for, in order and
  with an empty line behind each, and reports nothing. -/
  accepted : ∀ pattern nfa, Nfa.ofPattern? pattern = .ok nfa →
    (∃ texts, List.Forall₂
        (StandsFor o nfa (if o.minimize then nfa.determinize.minimize else nfa.determinize))
        (emitted (settings none args)) texts ∧
      (runAlone emphasis args pattern).out =
        headingOf pattern emphasis ++ String.join (texts.map (· ++ "\n"))) ∧
    (runAlone emphasis args pattern).err = ""

theorem run_of_requestOf {args : List String} {o : Options} {patterns : List String}
    (emphasis : Emphasis) (h : requestOf args = .run o patterns) :
    run emphasis args = runPatterns emphasis o patterns := by
  rw [run, h]

/-- **Patterns are treated independently**, by every command line that is a
run. -/
theorem run_independent {args : List String} {o : Options} {patterns : List String}
    (emphasis : Emphasis) (h : requestOf args = .run o patterns) :
    Independent emphasis args o patterns := by
  have hsame : ∀ further, further ≠ [] →
      requestOf (optionArguments none args ++ "--" :: further) = .run o further :=
    fun further => requestOf_optionArguments h
  have halone : ∀ pattern, runAlone emphasis args pattern = runPattern emphasis o pattern := by
    intro pattern
    rw [runAlone, run_of_requestOf emphasis (hsame _ (List.cons_ne_nil _ _)),
      runPatterns_singleton]
  obtain ⟨hle, hone⟩ := code_runPatterns emphasis o patterns
  have hrun : run emphasis args = runPatterns emphasis o patterns := run_of_requestOf emphasis h
  obtain ⟨hasked, hnamed⟩ := asked_of_requestOf h
  constructor
  case asked => exact hasked
  case same_options => exact hsame
  case out =>
    simp only [hrun, halone]
    exact out_runPatterns emphasis o patterns
  case err =>
    simp only [hrun, halone]
    exact err_runPatterns emphasis o patterns
  case code_one => rw [hrun, hone]
  case code_zero =>
    have hzero : (runPatterns emphasis o patterns).code = 0 ↔
        ¬ ∃ pattern ∈ patterns, ∃ e, Nfa.ofPattern? pattern = .error e := by
      rw [← hone]
      omega
    rw [hrun, hzero]
    constructor
    · intro hnone pattern hpattern
      cases hcompiled : Nfa.ofPattern? pattern with
      | ok nfa => exact ⟨nfa, rfl⟩
      | error e => exact absurd ⟨pattern, hpattern, e, hcompiled⟩ hnone
    · rintro hall ⟨pattern, hpattern, e, he⟩
      obtain ⟨nfa, hnfa⟩ := hall pattern hpattern
      rw [he] at hnfa
      cases hnfa
  case refused =>
    intro pattern e he
    obtain ⟨error, herror, hpattern⟩ := exists_runPattern_of_error emphasis o he
    rw [halone, hpattern]
    exact ⟨error, herror, rfl, rfl⟩
  case accepted =>
    intro pattern nfa hnfa
    rw [halone, runPattern_of_ok emphasis o hnfa]
    exact ⟨⟨_, forall₂_standsFor hnamed, report_eq emphasis o pattern nfa⟩, rfl⟩

/-- Options stand between the patterns, a part is asked for twice, and the
second pattern leaves a group open. -/
theorem run_independent_mixed :
    requestOf ["a|b", "-e", "pairs,nfa", "(c", "--emit=pairs", "--numeric", "--", "-"] =
        .run ⟨[.pairs, .nfa, .pairs], .c, "Yy_nxt", 4, true, true⟩ ["a|b", "(c", "-"] ∧
      Independent .plain ["a|b", "-e", "pairs,nfa", "(c", "--emit=pairs", "--numeric", "--", "-"]
        ⟨[.pairs, .nfa, .pairs], .c, "Yy_nxt", 4, true, true⟩ ["a|b", "(c", "-"] := by
  have h : requestOf ["a|b", "-e", "pairs,nfa", "(c", "--emit=pairs", "--numeric", "--", "-"] =
      .run ⟨[.pairs, .nfa, .pairs], .c, "Yy_nxt", 4, true, true⟩ ["a|b", "(c", "-"] := by
    decide +kernel
  exact ⟨h, run_independent .plain h⟩

end LineScan.CommandLine
