/-
  LineScan.Nfa.Thompson
  ─────────────────────
  **FROM EXPRESSIONS TO NODES.**

  Every expression becomes a fragment: nodes with one entrance and one exit,
  where the exit has no references yet.

      symbol, class   two nodes, the edge on the first
      cat             the exit of the first absorbs the entrance of the second
      alt             a fork before both, a join behind both
      star, plus,     a new entrance and a new exit around the body, with an
      optional        epsilon way past it, back through it, or both

  A rule that begins a line starts with a node that consumes a line feed; a
  rule that ends one consumes a line end on the way to a new exit.  The exit
  of a rule accepts.  The rules hang off a chain of epsilon nodes, whose
  first references enter the rules and whose second ones continue the chain.

  All of this is built in some `Store`; the automaton of a pattern is built in
  an arena.
-/
import LineScan.Nfa.Arena
import LineScan.Pattern.Regex

namespace LineScan

/-- Nodes with one entrance and one exit. -/
structure Fragment where
  /-- The entrance. -/
  first : Nat
  /-- The exit. -/
  last : Nat
deriving DecidableEq, Repr

/-! ## §1. Expressions. -/

variable {σ : Type} [Store σ]

/-- Two nodes with an edge between them. -/
def Edge.build (edge : Edge) (a : σ) : Except Fault (Fragment × σ) := do
  let (first, a) ← Store.alloc a
  let (last, a) ← Store.alloc a
  let a ← Store.setNext a first (some last)
  let a ← Store.setEdge a first edge
  return (⟨first, last⟩, a)

/-- A new entrance and a new exit around a fragment.  `skips` adds the way
past it, `repeats` the way back through it. -/
def Fragment.enclose (body : Fragment) (skips repeats : Bool) (a : σ) :
    Except Fault (Fragment × σ) := do
  let (first, a) ← Store.alloc a
  let (last, a) ← Store.alloc a
  let a ← Store.setNext a first (some body.first)
  let a ← Store.setNext a body.last (some last)
  let a ← if skips then Store.setOther a first (some last) else pure a
  let a ← if repeats then Store.setOther a body.last (some body.first) else pure a
  return (⟨first, last⟩, a)

/-- A fork before two fragments and a join behind them. -/
def Fragment.either (left right : Fragment) (a : σ) : Except Fault (Fragment × σ) := do
  let (fork, a) ← Store.alloc a
  let a ← Store.setNext a fork (some left.first)
  let a ← Store.setOther a fork (some right.first)
  let (join, a) ← Store.alloc a
  let a ← Store.setNext a left.last (some join)
  let a ← Store.setNext a right.last (some join)
  return (⟨fork, join⟩, a)

/-- **The fragment of an expression.** -/
def Regex.build : Regex → σ → Except Fault (Fragment × σ)
  | .symbol s, a => (Edge.byte s.toByte).build a
  | .cls c, a => (Edge.cls c).build a
  | .cat first second, a => do
      let (f, a) ← first.build a
      let (g, a) ← second.build a
      -- the exit of the first becomes the entrance of the second
      let a ← Store.splice a f.last g.first
      return (⟨f.first, g.last⟩, a)
  | .alt left right, a => do
      let (f, a) ← left.build a
      let (g, a) ← right.build a
      f.either g a
  | .star body, a => do
      let (f, a) ← body.build a
      f.enclose true true a
  | .plus body, a => do
      let (f, a) ← body.build a
      f.enclose false true a
  | .optional body, a => do
      let (f, a) ← body.build a
      f.enclose true false a

/-! ## §2. Rules. -/

/-- An expression behind a node that consumes a line feed. -/
def Regex.buildAtLineStart (body : Regex) (a : σ) : Except Fault (Fragment × σ) := do
  let (first, a) ← Store.alloc a
  let a ← Store.setEdge a first (.byte Symbol.lineFeed.toByte)
  let (f, a) ← body.build a
  let a ← Store.setNext a first (some f.first)
  return (⟨first, f.last⟩, a)

/-- Lets the exit of a fragment consume a line end on the way to a new
exit. -/
def Fragment.toLineEnd (f : Fragment) (a : σ) : Except Fault (Fragment × σ) := do
  let (last, a) ← Store.alloc a
  let a ← Store.setEdge a f.last (.cls CharClass.lineEnd)
  let a ← Store.setNext a f.last (some last)
  return (⟨f.first, last⟩, a)

/-- **The fragment of a rule**, whose exit accepts and carries the anchor. -/
def Rule.build (r : Rule) (a : σ) : Except Fault (Fragment × σ) := do
  let (f, a) ← if r.bol then r.body.buildAtLineStart a else r.body.build a
  let (f, a) ← if r.eol then f.toLineEnd a else pure (f, a)
  let a ← Store.setAnchor a f.last r.anchor
  return (f, a)

/-- Hangs rules on the chain whose last link so far is `link`. -/
def buildChain (link : Nat) (a : σ) : List Rule → Except Fault (List Fragment × σ)
  | [] => return ([], a)
  | [r] => do
      let (f, a) ← r.build a
      let a ← Store.setNext a link (some f.first)
      return ([f], a)
  | r :: r' :: rest => do
      let (f, a) ← r.build a
      let a ← Store.setNext a link (some f.first)
      -- only a rule with another one behind it lengthens the chain
      let (further, a) ← Store.alloc a
      let a ← Store.setOther a link (some further)
      let (fragments, a) ← buildChain further a (r' :: rest)
      return (f :: fragments, a)

/-! ## §3. Patterns. -/

/-- An automaton that has been built but not finished. -/
structure Assembly where
  /-- The nodes. -/
  arena : Arena
  /-- The first link of the chain of rules. -/
  start : Nat
  /-- The fragments of the rules, in order. -/
  fragments : List Fragment

/-- Builds rules, each on a chain that begins in a slot of its own. -/
def buildRules (rules : List Rule) (a : σ) : Except Fault ((Nat × List Fragment) × σ) := do
  let (start, a) ← Store.alloc a
  let (fragments, a) ← buildChain start a rules
  return ((start, fragments), a)

/-- **Builds the rules of a pattern.** -/
def Assembly.ofRules? (rules : List Rule) : Except Fault Assembly := do
  let ((start, fragments), arena) ← buildRules rules Arena.empty
  return { arena, start, fragments }

/-- The automaton of an assembly. -/
def Assembly.finish (a : Assembly) : Except Fault Nfa := a.arena.finish a.start

/-- **The automaton of a list of rules.** -/
def Nfa.ofRules? (rules : List Rule) : Except Fault Nfa := do
  let assembly ← Assembly.ofRules? rules
  assembly.finish

end LineScan
