/-
  LineScan.Pattern.Reader
  ───────────────────────
  **FROM ITEMS TO RULES.**

  A pattern is one or more rules, each of which but the last ends in `$`:

      rule    =  '^'?  expr  '$'?
      expr    =  cat  ( '|' cat )*
      cat     =  factor  factor*
      factor  =  term  ( '*' | '+' | '?' )?
      term    =  '(' expr ')'  |  '.'  |  '[' class ']'  |  symbol

  The reader takes one item at a time.  What it keeps between two items is a
  `Phase`: which part of a rule it is in, with the parts already read.  Open
  groups are kept as a list, innermost first, so reading never recurses and
  every item is looked at once.  A pattern that cannot be continued is
  refused at the first item that shows it, with the rules completed so far.
-/
import LineScan.Pattern.Bracket
import LineScan.Pattern.Lexer
import LineScan.Pattern.Regex

namespace LineScan

/-! ## §1. What has been read. -/

/-- A level of alternatives, the last of them unfinished. -/
structure Branch where
  /-- The finished alternatives, joined from the left. -/
  alts : Option Regex
  /-- The factors of the unfinished alternative, joined from the left. -/
  cat : Option Regex
deriving DecidableEq

namespace Branch

/-- A level on which nothing has been read. -/
def empty : Branch := ⟨none, none⟩

/-- Joins an expression to what stands before it, if anything does. -/
def join (op : Regex → Regex → Regex) (before : Option Regex) (r : Regex) : Regex :=
  match before with
  | none => r
  | some l => op l r

end Branch

/-- A group that is still open. -/
structure Group where
  /-- The offset of its opening parenthesis. -/
  openedAt : Nat
  /-- What stands before it on its own level. -/
  before : Branch
deriving DecidableEq

/-- The surroundings of the level being read. -/
structure Outer where
  /-- Whether the rule began with a `^`. -/
  bol : Bool
  /-- The open groups, innermost first. -/
  groups : List Group
deriving DecidableEq

/-- Where in a rule the reader is. -/
inductive Phase where
  /-- Before the first token of a rule. -/
  | ruleStart
  /-- Before the first factor of an alternative. -/
  | operand (outer : Outer) (alts : Option Regex)
  /-- After a term, to which a quantifier may still belong. -/
  | afterTerm (outer : Outer) (before : Branch) (term : Regex)
  /-- After a factor that takes no quantifier any more. -/
  | afterFactor (outer : Outer) (alts : Option Regex) (cat : Regex)
  /-- Inside a character class that was opened at `openedAt`. -/
  | inBracket (outer : Outer) (before : Branch) (openedAt : Nat) (bracket : Bracket)
  /-- After the `$` of a rule, which is complete if no `)` follows. -/
  | afterDollar (rule : Rule)
deriving DecidableEq

/-- A pattern of which a part has been read. -/
structure Reader where
  /-- The rules completed so far, in order. -/
  rules : List Rule
  /-- Where in the next rule the reader is. -/
  phase : Phase
deriving DecidableEq

/-- A refusal: the reason, and the rules completed before it arose. -/
structure Refusal where
  /-- The reason. -/
  error : SyntaxError
  /-- The rules completed before. -/
  rules : List Rule
deriving DecidableEq

namespace Phase

/-! ## §2. One token inside a rule. -/

/-- The quantifier that a kind of token is, as an operation. -/
def quantifier? : Kind → Option (Regex → Regex)
  | .star => some .star
  | .plus => some .plus
  | .questionMark => some .optional
  | _ => none

/-- Reads the first token of a factor. -/
def beginFactor (outer : Outer) (before : Branch) (t : Token) : Except SyntaxError Phase :=
  match t.kind with
  | .star | .plus | .questionMark => .error (.danglingQuantifier t.symbol t.position)
  | .rightBracket => .error (.strayBracket t.position)
  | .caret => .error (.strayCaret t.position)
  | .rightParen | .dollar | .pipe => .error (.emptyExpression t.position)
  | .leftParen =>
      .ok (.operand { outer with groups := ⟨t.position, before⟩ :: outer.groups } none)
  | .leftBracket => .ok (.inBracket outer before t.position .opened)
  | .dot => .ok (.afterTerm outer before (.cls CharClass.dot))
  | .dash | .literal => .ok (.afterTerm outer before (.symbol t.symbol))

/-- Reads a token after a factor: it ends the alternative, the group or the
rule, or begins another factor. -/
def afterFactorStep (outer : Outer) (alts : Option Regex) (cat : Regex) (t : Token) :
    Except SyntaxError Phase :=
  match t.kind with
  | .pipe => .ok (.operand outer (some (Branch.join .alt alts cat)))
  | .rightParen =>
      match outer.groups with
      | [] => .error (.strayParen t.position)
      | group :: groups =>
          .ok (.afterTerm { outer with groups } group.before (Branch.join .alt alts cat))
  | .dollar =>
      match outer.groups with
      | [] => .ok (.afterDollar ⟨outer.bol, Branch.join .alt alts cat, true⟩)
      -- a rule cannot end inside a group
      | _ :: _ => .error (.unmatchedParen t.position)
  | _ => beginFactor outer ⟨alts, some cat⟩ t

/-- Reads a token after a term. -/
def afterTermStep (outer : Outer) (before : Branch) (term : Regex) (t : Token) :
    Except SyntaxError Phase :=
  match quantifier? t.kind with
  | some q => .ok (.afterFactor outer before.alts (Branch.join .cat before.cat (q term)))
  | none => afterFactorStep outer before.alts (Branch.join .cat before.cat term) t

/-- Reads a token inside a character class. -/
def bracketStep (outer : Outer) (before : Branch) (openedAt : Nat) (bracket : Bracket)
    (t : Token) : Except SyntaxError Phase :=
  match bracket.step t with
  | .error e => .error e
  | .ok (.more bracket) => .ok (.inBracket outer before openedAt bracket)
  | .ok (.closed c) => .ok (.afterTerm outer before (.cls c))

/-- Reads the first token of a rule. -/
def ruleStartStep (t : Token) : Except SyntaxError Phase :=
  if t.kind = .caret then .ok (.operand ⟨true, []⟩ none)
  else beginFactor ⟨false, []⟩ Branch.empty t

end Phase

namespace Reader

/-! ## §3. One item of a pattern. -/

/-- Before the first item. -/
def start : Reader := ⟨[], .ruleStart⟩

/-- Refuses to go on. -/
def refuse (r : Reader) (e : SyntaxError) : Refusal := ⟨e, r.rules⟩

/-- Goes on with a phase, or refuses. -/
def enter (r : Reader) : Except SyntaxError Phase → Except Refusal Reader
  | .ok phase => .ok { r with phase }
  | .error e => .error (r.refuse e)

/-- **Reads one token.** -/
def step (r : Reader) (t : Token) : Except Refusal Reader :=
  match r.phase with
  | .ruleStart => r.enter (Phase.ruleStartStep t)
  | .operand outer alts => r.enter (Phase.beginFactor outer ⟨alts, none⟩ t)
  | .afterTerm outer before term => r.enter (Phase.afterTermStep outer before term t)
  | .afterFactor outer alts cat => r.enter (Phase.afterFactorStep outer alts cat t)
  | .inBracket outer before openedAt bracket =>
      r.enter (Phase.bracketStep outer before openedAt bracket t)
  | .afterDollar rule =>
      if t.kind = .rightParen then .error (r.refuse (.strayParen t.position))
      else
        -- the rule is complete, and the token begins the next one
        let r : Reader := ⟨r.rules ++ [rule], .ruleStart⟩
        r.enter (Phase.ruleStartStep t)

/-- **Reads one item**; a foreign byte is refused wherever it stands. -/
def feed (r : Reader) : Item → Except Refusal Reader
  | .token t => r.step t
  | .foreign b p => .error (r.refuse (.byteOutOfRange b p))

/-- Completes a rule that ends with its last factor. -/
def close (r : Reader) (outer : Outer) (body : Regex) : Except Refusal (List Rule) :=
  match outer.groups with
  | [] => .ok (r.rules ++ [⟨outer.bol, body, false⟩])
  | group :: _ => .error (r.refuse (.unmatchedParen group.openedAt))

/-- **Ends a pattern** at the offset `stop`. -/
def finish (r : Reader) (stop : Nat) : Except Refusal (List Rule) :=
  match r.phase with
  | .ruleStart | .operand _ _ => .error (r.refuse (.emptyExpression stop))
  | .afterTerm outer before term =>
      r.close outer (Branch.join .alt before.alts (Branch.join .cat before.cat term))
  | .afterFactor outer alts cat => r.close outer (Branch.join .alt alts cat)
  | .inBracket _ _ openedAt _ => .error (r.refuse (.unterminatedClass openedAt))
  | .afterDollar rule => .ok (r.rules ++ [rule])

/-! ## §4. A whole pattern. -/

/-- Reads items in order, up to the first that is refused. -/
def feedAll (r : Reader) (items : List Item) : Except Refusal Reader :=
  items.foldlM feed r

end Reader

/-- **The rules of a pattern**, or the reason why it has none. -/
def readRules (pattern : String) : Except Refusal (List Rule) := do
  let r ← Reader.start.feedAll (itemsOf pattern)
  r.finish (endOf pattern)

end LineScan
