/-
  LineScan.Compile
  ────────────────
  **FROM A PATTERN TO ITS AUTOMATON.**

      pattern ─ readRules ─▶ rules ─ Nfa.ofRules? ─▶ nodes
              ─ determinize ─▶ states ─ minimize ─▶ merged states

  `compile` is that chain.  It fails only on texts that are no patterns;
  `CompileError.fault` is there because building nodes works on slot numbers,
  and no pattern brings it about.  A `Compilation` keeps the results of all
  stages, for the log; the last section says which events each stage reports.
-/
import LineScan.Dfa.Quotient
import LineScan.Dfa.Subset
import LineScan.Event
import LineScan.Nfa.Thompson
import LineScan.Pattern.Reader
import LineScan.Render.PackedTable

namespace LineScan

/-! ## §1. The chain. -/

/-- Why there is no automaton. -/
inductive CompileError where
  /-- The text is no pattern. -/
  | pattern (e : SyntaxError)
  /-- A slot number was misused. -/
  | fault (f : Fault)
deriving DecidableEq, Repr

/-- The rules of a pattern. -/
def rulesOf (pattern : String) : Except CompileError (List Rule) :=
  (readRules pattern).mapError fun refusal => .pattern refusal.error

/-- The nodes of a list of rules, before they are finished. -/
def assemblyOf (rules : List Rule) : Except CompileError Assembly :=
  (Assembly.ofRules? rules).mapError .fault

/-- The finished automaton of an assembly. -/
def nfaOf (assembly : Assembly) : Except CompileError Nfa := assembly.finish.mapError .fault

/-- **The non-deterministic automaton of a pattern.** -/
def Nfa.ofPattern? (pattern : String) : Except CompileError Nfa := do
  nfaOf (← assemblyOf (← rulesOf pattern))

/-- **The deterministic automaton of a pattern**, with indistinguishable
states merged. -/
def compile (pattern : String) : Except CompileError Dfa := do
  let nfa ← Nfa.ofPattern? pattern
  return nfa.determinize.minimize

/-! ## §2. A record of the chain. -/

/-- Everything that compiling a pattern brings forth. -/
structure Compilation where
  /-- The pattern. -/
  pattern : String
  /-- Its rules. -/
  rules : List Rule
  /-- Their nodes, before they were finished. -/
  assembly : Assembly
  /-- The finished automaton. -/
  nfa : Nfa
  /-- The deterministic one. -/
  states : Dfa
  /-- Which of its states are merged, and the sweeps that showed it. -/
  refined : Partition states.size × List (Pass states.size)

namespace Compilation

/-- Compiles a pattern and keeps the results of all stages. -/
def ofPattern? (pattern : String) : Except CompileError Compilation := do
  let rules ← rulesOf pattern
  let assembly ← assemblyOf rules
  let nfa ← nfaOf assembly
  let states := nfa.determinize
  return { pattern, rules, assembly, nfa, states, refined := states.refinement }

/-- The automaton with states merged. -/
def result (c : Compilation) : Dfa := c.states.quotient c.refined.1

end Compilation

/-- The record ends in the automaton that `compile` returns. -/
theorem compile_eq_map_result (pattern : String) :
    compile pattern = (Compilation.ofPattern? pattern).map Compilation.result := by
  unfold compile Nfa.ofPattern? Compilation.ofPattern?
  cases rulesOf pattern with
  | error e => rfl
  | ok rules =>
      show ((assemblyOf rules).bind nfaOf).bind _ = Except.map _ ((assemblyOf rules).bind _)
      cases assemblyOf rules with
      | error e => rfl
      | ok assembly =>
          show (nfaOf assembly).bind _ = Except.map _ ((nfaOf assembly).bind _)
          cases nfaOf assembly with
          | error e => rfl
          | ok nfa => rfl

/-! ## §3. The events of the chain. -/

/-- The events of building rules: one for each. -/
def Rule.events (rules : List Rule) (fragments : List Fragment) : List Event :=
  (rules.zip fragments).map fun (rule, f) => .ruleBuilt f.first f.last rule.anchor

/-- The event of finishing an automaton. -/
def Arena.finishEvent (a : Arena) : Event :=
  .nodesFinished a.nodes.length a.slots.size a.reused

/-- The events of finding the states of an automaton; the start is not
reported. -/
def Dfa.discoveryEvents (d : Dfa) : List Event :=
  (d.states.toList.drop 1).map (fun s => .stateFound s.name s.label.text s.accepting) ++
    [.statesFinished d.size]

/-- The names of the members of a block. -/
def Dfa.memberNames (d : Dfa) (b : Block d.size) : List String :=
  b.members.map fun s => (d.state s).name

/-- The event of splitting a block. -/
def Dfa.splitEvent (d : Dfa) (s : Split d.size) : Event :=
  .blockSplit s.block (d.memberNames s.kept) s.fresh (d.memberNames s.moved)

/-- The events of one sweep. -/
def Dfa.passEvents (d : Dfa) (pass : Pass d.size) (number : Nat) : List Event :=
  pass.splits.map d.splitEvent ++ [.sweepFinished number pass.splits.length pass.count]

/-- The events of merging the states of an automaton. -/
def Dfa.mergeEvents (d : Dfa) (passes : List (Pass d.size)) (blocks : Nat) : List Event :=
  (passes.zipIdx 1).flatMap (fun (pass, number) => d.passEvents pass number) ++
    [.statesMerged d.size blocks]

/-- **The events of a compilation.** -/
def Compilation.events (c : Compilation) : List Event :=
  Rule.events c.rules c.assembly.fragments ++ [c.assembly.arena.finishEvent] ++
    c.states.discoveryEvents ++ c.states.mergeEvents c.refined.2 c.refined.1.count ++
    [.compiled c.pattern c.nfa.size c.states.size c.refined.1.count]

/-- **The events of a text that is no pattern**: those of the rules completed
before that showed. -/
def refusedEvents (pattern : String) : List Event :=
  match readRules pattern with
  | .ok _ => []
  | .error refusal =>
      match Assembly.ofRules? refusal.rules with
      | .error _ => []
      | .ok assembly => Rule.events refusal.rules assembly.fragments

/-- The event of writing a compressed table. -/
def Dfa.packEvent (d : Dfa) (options : PackedTableOptions) : Event :=
  .tablePacked d.matrix.length (PackedTable.reportedCells (d.packedRows options.threshold))
    options.threshold

end LineScan
