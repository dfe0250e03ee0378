/-
  LineScan.Proofs.Plain.Builder
  ─────────────────────────────
  **BUILDING NODES WHILE READING.**

  `readRules` reads a pattern to the end before the first node is built.  The
  builder of this module does both at once: where the reader keeps an
  expression, it keeps the fragment that the expression has become, two slot
  numbers in an arena that every token may change.  A pattern that turns out
  to be none leaves nodes behind, and the work on them is checked too:

      alloc?        the slot that is handed out again must exist
      get, splice   the slot must hold a node
      insert?       the symbol must fit into the class

  Building what is read later never touches what is held back, which is why
  the two slot numbers stay good; `Tracks` says so, in a module of its own.
-/
import LineScan.Compile
import LineScan.Proofs.Nfa.RuleChain
import LineScan.Proofs.Plain.Lexer

namespace LineScan

/-! ## §1. Fragments. -/

/-- Puts a fresh node into the slot released last, which must exist, or into
a new slot. -/
def Arena.alloc? (a : Arena) : Except Fault (Nat × Arena) :=
  match a.free with
  | i :: _ => if i < a.slots.size then .ok a.alloc else .error (.outOfRange a.slots.size i)
  | [] => .ok a.alloc

theorem Arena.alloc?_eq_alloc {a : Arena} (ha : a.Consistent) : a.alloc? = .ok a.alloc := by
  unfold alloc?
  cases hfree : a.free with
  | nil => rfl
  | cons i free =>
      have hreleased : a.slots[i]? = some none := (ha.mem_free i).1 (hfree ▸ List.mem_cons_self)
      exact if_pos (Array.getElem?_eq_some_iff.1 hreleased).1

/-- A class made of the two bytes that end a line. -/
def CharClass.ofLineEnds? (complement : Bool) : Except Fault CharClass :=
  CharClass.ofNumbers? [Symbol.lineFeed.val, Symbol.carriageReturn.val] complement

theorem CharClass.ofLineEnds?_eq (complement : Bool) :
    CharClass.ofLineEnds? complement =
      .ok ⟨BitSet.ofList [Symbol.lineFeed, Symbol.carriageReturn], complement⟩ := by
  have hset : BitSet.ofList? alphabetSize [Symbol.lineFeed.val, Symbol.carriageReturn.val] =
      .ok (BitSet.ofList [Symbol.lineFeed, Symbol.carriageReturn]) :=
    BitSet.ofList?_map_val [Symbol.lineFeed, Symbol.carriageReturn]
  unfold ofLineEnds? ofNumbers?
  rw [hset]
  rfl

namespace Fragment

/-- Two nodes, the first of which leads to the second. -/
def pair? (a : Arena) : Except Fault (Fragment × Arena) := do
  let (first, a) ← a.alloc?
  let (last, a) ← a.alloc?
  let a ← a.setNext first (some last)
  return (⟨first, last⟩, a)

/-- Two nodes with an edge between them. -/
def edge? (edge : Edge) (a : Arena) : Except Fault (Fragment × Arena) := do
  let (f, a) ← pair? a
  let a ← a.setEdge f.first edge
  return (f, a)

/-- A new entrance and a new exit around a fragment. -/
def enclose? (body : Fragment) (skips repeats : Bool) (a : Arena) :
    Except Fault (Fragment × Arena) := do
  let (first, a) ← a.alloc?
  let (last, a) ← a.alloc?
  let a ← a.setNext first (some body.first)
  let a ← a.setNext body.last (some last)
  let a ← if skips then a.setOther first (some last) else pure a
  let a ← if repeats then a.setOther body.last (some body.first) else pure a
  return (⟨first, last⟩, a)

/-- A fork before two fragments and a join behind them. -/
def either? (left right : Fragment) (a : Arena) : Except Fault (Fragment × Arena) := do
  let (fork, a) ← a.alloc?
  let a ← a.setNext fork (some left.first)
  let a ← a.setOther fork (some right.first)
  let (join, a) ← a.alloc?
  let a ← a.setNext left.last (some join)
  let a ← a.setNext right.last (some join)
  return (⟨fork, join⟩, a)

/-- Lets the exit of a fragment consume a line end on the way to a new
exit. -/
def toLineEnd? (f : Fragment) (a : Arena) : Except Fault (Fragment × Arena) := do
  let ends ← CharClass.ofLineEnds? false
  let (last, a) ← a.alloc?
  let a ← a.setEdge f.last (.cls ends)
  let a ← a.setNext f.last (some last)
  return (⟨f.first, last⟩, a)

section Consistent

variable {a : Arena} (ha : a.Consistent)
include ha

theorem edge?_eq_build (edge : Edge) : edge? edge a = edge.build a := by
  obtain ⟨i, a₁, h₁, hc₁, _⟩ := Arena.exists_alloc ha
  obtain ⟨j, a₂, h₂, hc₂, _⟩ := Arena.exists_alloc hc₁
  unfold edge? pair? Edge.build
  simp only [Arena.alloc?_eq_alloc ha, h₁, ok_bind, Arena.alloc?_eq_alloc hc₁, h₂, bind_assoc,
    pure_bind, Store.alloc, Store.setNext, Store.setEdge]

theorem enclose?_eq_enclose (f : Fragment) (skips repeats : Bool) :
    f.enclose? skips repeats a = f.enclose skips repeats a := by
  obtain ⟨i, a₁, h₁, hc₁, _⟩ := Arena.exists_alloc ha
  unfold enclose? enclose
  simp only [Arena.alloc?_eq_alloc ha, h₁, ok_bind, Arena.alloc?_eq_alloc hc₁, Store.alloc,
    Store.setNext, Store.setOther]

theorem either?_eq_either (f g : Fragment) : f.either? g a = f.either g a := by
  obtain ⟨i, a₁, a₂, b, h₁, h₂, h₃, hb, _⟩ := Arena.exists_fork ha f.first g.first
  unfold either? either
  simp only [Arena.alloc?_eq_alloc ha, h₁, ok_bind, h₂, h₃, Arena.alloc?_eq_alloc hb, Store.alloc,
    Store.setNext, Store.setOther]

theorem toLineEnd?_eq_toLineEnd (f : Fragment) : f.toLineEnd? a = f.toLineEnd a := by
  unfold toLineEnd? toLineEnd
  simp only [CharClass.ofLineEnds?_eq, Arena.alloc?_eq_alloc ha, ok_bind]
  rfl

end Consistent

end Fragment

/-! ## §2. Classes. -/

/-- A stage that may be at fault, as one that may also refuse its input. -/
def orFault {α : Type} (x : Except Fault α) : Except CompileError α := x.mapError .fault

theorem orFault_ok {α : Type} (x : α) : orFault (.ok x) = .ok x := rfl

namespace Bracket

/-- Reads a token of the body. -/
def stepBody? (complement : Bool) (set : SymbolSet) (memory : Memory) (t : Token) :
    Except CompileError Outcome :=
  match t.kind, memory with
  | .rightBracket, .pending _ _ => do
      let set ← orFault (set.insert? Symbol.dash)
      return .closed ⟨set, complement⟩
  | .rightBracket, _ => .ok (.closed ⟨set, complement⟩)
  | _, .pending low position =>
      if t.symbol < low then .error (.pattern (.invalidRange low t.symbol position))
      else do
        let set ← orFault (set.insertRange? low t.symbol)
        return .more (.body complement set .nothing)
  | .dash, .single low => .ok (.more (.body complement set (.pending low t.position)))
  | _, _ => do
      let set ← orFault (set.insert? t.symbol)
      return .more (.body complement set (.single t.symbol))

/-- Reads the first token of the body, or the end of an empty one. -/
def stepFirst? (complement : Bool) (t : Token) : Except CompileError Outcome :=
  match t.kind with
  | .rightBracket => do
      let set ← orFault ((BitSet.empty alphabetSize).insertRange? 0 0x20)
      return .closed ⟨set, complement⟩
  | _ => stepBody? complement (BitSet.empty _) .nothing t

/-- Reads one token of a class. -/
def step? : Bracket → Token → Except CompileError Outcome
  | .opened, t => if t.kind = .caret then .ok (.more .negated) else stepFirst? false t
  | .negated, t => stepFirst? true t
  | .body complement set memory, t => stepBody? complement set memory t

theorem stepBody?_eq (complement : Bool) (set : SymbolSet) (memory : Memory) (t : Token) :
    stepBody? complement set memory t = (stepBody complement set memory t).mapError .pattern := by
  have hinsert : ∀ a : Symbol, set.insert? a = .ok (set.insert a) := set.insert?_val
  have hrange : ∀ low, set.insertRange? low t.symbol = .ok (set.insertRange low t.symbol) :=
    fun low => set.insertRange?_eq_insertRange low t.symbol.isLt
  unfold stepBody? stepBody
  cases memory with
  | nothing => cases t.kind <;> simp only [hinsert] <;> rfl
  | single low => cases t.kind <;> simp only [hinsert] <;> rfl
  | pending low position =>
      by_cases hlt : t.symbol < low
      · cases t.kind <;> simp only [hinsert, if_pos hlt] <;> rfl
      · cases t.kind <;> simp only [hinsert, hrange, if_neg hlt] <;> rfl

theorem stepFirst?_eq (complement : Bool) (t : Token) :
    stepFirst? complement t = (stepFirst complement t).mapError .pattern := by
  have hblanks : (BitSet.empty alphabetSize).insertRange? 0 0x20 = .ok CharClass.blanks :=
    BitSet.insertRange?_eq_insertRange _ 0 (by decide)
  unfold stepFirst? stepFirst
  cases t.kind <;> simp only [hblanks, stepBody?_eq]
  rfl

theorem step?_eq (b : Bracket) (t : Token) : b.step? t = (b.step t).mapError .pattern := by
  cases b with
  | opened =>
      by_cases hcaret : t.kind = .caret
      · simp only [step?, step, if_pos hcaret]
        rfl
      · simp only [step?, step, if_neg hcaret, stepFirst?_eq]
  | negated => exact stepFirst?_eq true t
  | body complement set memory => exact stepBody?_eq complement set memory t

end Bracket

/-! ## §3. What has been built. -/

/-- A level of alternatives, the last of them unfinished. -/
structure BuiltBranch where
  /-- The finished alternatives. -/
  alts : Option Fragment
  /-- The factors of the unfinished alternative. -/
  cat : Option Fragment

/-- A group that is still open. -/
structure BuiltGroup where
  /-- The offset of its opening parenthesis. -/
  openedAt : Nat
  /-- What stands before it on its own level. -/
  before : BuiltBranch

/-- The surroundings of the level being read. -/
structure BuiltOuter where
  /-- The node that consumes a line feed, if the rule began with a `^`. -/
  bol : Option Nat
  /-- The open groups, innermost first. -/
  groups : List BuiltGroup

/-- Where in a rule the builder is. -/
inductive BuiltPhase where
  /-- Before the first token of a rule. -/
  | ruleStart
  /-- Before the first factor of an alternative. -/
  | operand (outer : BuiltOuter) (alts : Option Fragment)
  /-- After a term, to which a quantifier may still belong. -/
  | afterTerm (outer : BuiltOuter) (before : BuiltBranch) (term : Fragment)
  /-- After a factor that takes no quantifier any more. -/
  | afterFactor (outer : BuiltOuter) (alts : Option Fragment) (cat : Fragment)
  /-- Inside a character class; the nodes that it will label are there. -/
  | inBracket (outer : BuiltOuter) (before : BuiltBranch) (openedAt : Nat) (term : Fragment)
      (bracket : Bracket)
  /-- After the `$` of a rule. -/
  | afterDollar (bol : Bool) (rule : Fragment)

/-- A pattern of which a part has been built. -/
structure Builder where
  /-- The nodes. -/
  arena : Arena
  /-- The last link of the chain of rules. -/
  link : Nat
  /-- The fragments of the rules on the chain. -/
  fragments : List Fragment
  /-- Where in the next rule the builder is. -/
  phase : BuiltPhase

/-- Splices a fragment to what stands before it, if anything does. -/
def Fragment.joinCat? (before : Option Fragment) (f : Fragment) (a : Arena) :
    Except Fault (Fragment × Arena) :=
  match before with
  | none => .ok (f, a)
  | some l => do
      let a ← a.splice l.last f.first
      return (⟨l.first, f.last⟩, a)

/-- Makes a fragment an alternative to what stands before it, if anything
does. -/
def Fragment.joinAlt? (before : Option Fragment) (f : Fragment) (a : Arena) :
    Except Fault (Fragment × Arena) :=
  match before with
  | none => .ok (f, a)
  | some l => l.either? f a

/-- Lets the node that consumes a line feed, if there is one, lead to the
expression of its rule. -/
def Fragment.startLine? (bol : Option Nat) (f : Fragment) (a : Arena) :
    Except Fault (Fragment × Arena) :=
  match bol with
  | none => .ok (f, a)
  | some first => do
      let a ← a.setNext first (some f.first)
      return (⟨first, f.last⟩, a)

/-! ## §4. One token inside a rule. -/

namespace BuiltPhase

/-- Which ways a quantifier adds: past its body, and back through it. -/
def quantifier? : Kind → Option (Bool × Bool)
  | .star => some (true, true)
  | .plus => some (false, true)
  | .questionMark => some (true, false)
  | _ => none

/-- Reads the first token of a factor. -/
def beginFactor? (outer : BuiltOuter) (before : BuiltBranch) (t : Token) (a : Arena) :
    Except CompileError (BuiltPhase × Arena) :=
  match t.kind with
  | .star | .plus | .questionMark => .error (.pattern (.danglingQuantifier t.symbol t.position))
  | .rightBracket => .error (.pattern (.strayBracket t.position))
  | .caret => .error (.pattern (.strayCaret t.position))
  | .rightParen | .dollar | .pipe => .error (.pattern (.emptyExpression t.position))
  | .leftParen =>
      .ok (.operand { outer with groups := ⟨t.position, before⟩ :: outer.groups } none, a)
  | .leftBracket => do
      let (f, a) ← orFault (Fragment.pair? a)
      return (.inBracket outer before t.position f .opened, a)
  | .dot => do
      let others ← orFault (CharClass.ofLineEnds? true)
      let (f, a) ← orFault (Fragment.edge? (.cls others) a)
      return (.afterTerm outer before f, a)
  | .dash | .literal => do
      let (f, a) ← orFault (Fragment.edge? (.byte t.symbol.toByte) a)
      return (.afterTerm outer before f, a)

/-- Reads a token after a factor.  An alternative is joined to those before it
as soon as it is complete. -/
def afterFactorStep? (outer : BuiltOuter) (alts : Option Fragment) (cat : Fragment) (t : Token)
    (a : Arena) : Except CompileError (BuiltPhase × Arena) :=
  match t.kind with
  | .pipe => do
      let (f, a) ← orFault (Fragment.joinAlt? alts cat a)
      return (.operand outer (some f), a)
  | .rightParen => do
      let (f, a) ← orFault (Fragment.joinAlt? alts cat a)
      match outer.groups with
      | [] =>
          -- the rule is left standing as far as it goes
          let _ ← orFault (Fragment.startLine? outer.bol f a)
          .error (.pattern (.strayParen t.position))
      | group :: groups => return (.afterTerm { outer with groups } group.before f, a)
  | .dollar => do
      let (f, a) ← orFault (Fragment.joinAlt? alts cat a)
      match outer.groups with
      | [] =>
          let (f, a) ← orFault (Fragment.startLine? outer.bol f a)
          let (f, a) ← orFault (f.toLineEnd? a)
          return (.afterDollar outer.bol.isSome f, a)
      | _ :: _ => .error (.pattern (.unmatchedParen t.position))
  | _ => beginFactor? outer ⟨alts, some cat⟩ t a

/-- Reads a token after a term. -/
def afterTermStep? (outer : BuiltOuter) (before : BuiltBranch) (term : Fragment) (t : Token)
    (a : Arena) : Except CompileError (BuiltPhase × Arena) :=
  match quantifier? t.kind with
  | some (skips, repeats) => do
      let (f, a) ← orFault (term.enclose? skips repeats a)
      let (f, a) ← orFault (Fragment.joinCat? before.cat f a)
      return (.afterFactor outer before.alts f, a)
  | none => do
      let (f, a) ← orFault (Fragment.joinCat? before.cat term a)
      afterFactorStep? outer before.alts f t a

/-- Reads a token inside a character class. -/
def bracketStep? (outer : BuiltOuter) (before : BuiltBranch) (openedAt : Nat) (term : Fragment)
    (bracket : Bracket) (t : Token) (a : Arena) : Except CompileError (BuiltPhase × Arena) := do
  match ← bracket.step? t with
  | .more bracket => return (.inBracket outer before openedAt term bracket, a)
  | .closed c =>
      let a ← orFault (a.setEdge term.first (.cls c))
      return (.afterTerm outer before term, a)

/-- Reads the first token of a rule. -/
def ruleStartStep? (t : Token) (a : Arena) : Except CompileError (BuiltPhase × Arena) :=
  if t.kind = .caret then do
    let (first, a) ← orFault a.alloc?
    let a ← orFault (a.setEdge first (.byte Symbol.lineFeed.toByte))
    return (.operand ⟨some first, []⟩ none, a)
  else beginFactor? ⟨none, []⟩ ⟨none, none⟩ t a

/-- Completes a rule that ends with its last factor. -/
def close? (outer : BuiltOuter) (alts : Option Fragment) (cat : Fragment) (a : Arena) :
    Except CompileError (Fragment × Arena) := do
  let (f, a) ← orFault (Fragment.joinAlt? alts cat a)
  match outer.groups with
  | [] => orFault (Fragment.startLine? outer.bol f a)
  | group :: _ => .error (.pattern (.unmatchedParen group.openedAt))

end BuiltPhase

namespace Builder

/-! ## §5. One item of a pattern. -/

/-- Before the first item. -/
def start? : Except Fault Builder := do
  let (link, arena) ← Arena.empty.alloc?
  return ⟨arena, link, [], .ruleStart⟩

/-- Hangs a rule on the last link of the chain. -/
def hang? (b : Builder) (anchor : Anchor) (rule : Fragment) : Except Fault Builder := do
  let a ← b.arena.setAnchor rule.last anchor
  let a ← a.setNext b.link (some rule.first)
  return { b with arena := a, fragments := b.fragments ++ [rule] }

/-- Lengthens the chain by a link. -/
def lengthen? (b : Builder) : Except Fault Builder := do
  let (further, a) ← b.arena.alloc?
  let a ← a.setOther b.link (some further)
  return { b with arena := a, link := further }

/-- Goes on with a phase. -/
def enter (b : Builder) (x : Except CompileError (BuiltPhase × Arena)) :
    Except CompileError Builder := do
  let (phase, arena) ← x
  return { b with phase, arena }

/-- Reads one token. -/
def step? (b : Builder) (t : Token) : Except CompileError Builder :=
  match b.phase with
  | .ruleStart => b.enter (BuiltPhase.ruleStartStep? t b.arena)
  | .operand outer alts => b.enter (BuiltPhase.beginFactor? outer ⟨alts, none⟩ t b.arena)
  | .afterTerm outer before term =>
      b.enter (BuiltPhase.afterTermStep? outer before term t b.arena)
  | .afterFactor outer alts cat =>
      b.enter (BuiltPhase.afterFactorStep? outer alts cat t b.arena)
  | .inBracket outer before openedAt term bracket =>
      b.enter (BuiltPhase.bracketStep? outer before openedAt term bracket t b.arena)
  | .afterDollar bol rule =>
      if t.kind = .rightParen then .error (.pattern (.strayParen t.position))
      else do
        let b ← orFault (b.hang? ⟨bol, true⟩ rule)
        let b ← orFault b.lengthen?
        b.enter (BuiltPhase.ruleStartStep? t b.arena)

/-- Reads one item. -/
def feed? (b : Builder) : Item → Except CompileError Builder
  | .token t => b.step? t
  | .foreign byte position => .error (.pattern (.byteOutOfRange byte position))

/-- Ends a pattern at the offset `stop`. -/
def finish? (b : Builder) (stop : Nat) : Except CompileError Builder :=
  match b.phase with
  | .ruleStart | .operand _ _ => .error (.pattern (.emptyExpression stop))
  | .afterTerm outer before term => do
      let (f, a) ← orFault (Fragment.joinCat? before.cat term b.arena)
      let (f, a) ← BuiltPhase.close? outer before.alts f a
      orFault ({ b with arena := a }.hang? ⟨outer.bol.isSome, false⟩ f)
  | .afterFactor outer alts cat => do
      let (f, a) ← BuiltPhase.close? outer alts cat b.arena
      orFault ({ b with arena := a }.hang? ⟨outer.bol.isSome, false⟩ f)
  | .inBracket _ _ openedAt _ _ => .error (.pattern (.unterminatedClass openedAt))
  | .afterDollar bol rule => orFault (b.hang? ⟨bol, true⟩ rule)

end Builder

/-- **Reads a pattern and builds its nodes in one go.** -/
def assemble? (pattern : String) : Except CompileError Assembly := do
  let (items, stop) ← orFault (PlainCursor.items? (utf8 pattern) ⟨0, false⟩)
  let b ← orFault Builder.start?
  let start := b.link
  let b ← items.foldlM Builder.feed? b
  let b ← b.finish? stop
  return ⟨b.arena, start, b.fragments⟩

end LineScan
