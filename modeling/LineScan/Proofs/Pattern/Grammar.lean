/-
  LineScan.Proofs.Pattern.Grammar
  ───────────────────────────────
  **THE GRAMMAR OF PATTERNS.**

      machine =  rule  rule*          all but the last end in `$`
      rule    =  '^'?  expr  '$'?
      expr    =  cat  ( '|' cat )*
      cat     =  factor  factor*
      factor  =  term  ( '*' | '+' | '?' )?
      term    =  '(' expr ')'  |  '.'  |  '[' class ']'  |  literal  |  '-'
      class   =  '^'?  body

  The grammar speaks of lists of tokens and gives each list that it derives
  its language.  It knows nothing of how tokens are read: no levels, no
  phases, no expressions that have been put together.

  The body of a class is any list of tokens without a closing bracket.  It is
  cut into single symbols and ranges from left to right (`classItems`), and a
  range must not end below its beginning.
-/
import LineScan.Pattern.Token
import LineScan.Proofs.Pattern.Language
import Mathlib.Order.Interval.Set.Basic

namespace LineScan

open Computability

/-! ## §1. Classes. -/

/-- An entry in the body of a class. -/
inductive ClassItem where
  /-- One symbol. -/
  | single (a : Symbol)
  /-- The symbols from `low` to `high`. -/
  | range (low high : Symbol)

namespace ClassItem

/-- A range must not end below its beginning. -/
def Valid : ClassItem → Prop
  | .single _ => True
  | .range low high => low ≤ high

/-- The symbols of an entry. -/
def symbols : ClassItem → Set Symbol
  | .single a => {a}
  | .range low high => Set.Icc low high

end ClassItem

/-- **The entries of a class**, cut off from the left: a dash between two
tokens makes a range of them, and whatever is left over is a single symbol. -/
def classItems : List Token → List ClassItem
  | a :: d :: b :: rest =>
      if d.kind = .dash then .range a.symbol b.symbol :: classItems rest
      else .single a.symbol :: classItems (d :: b :: rest)
  | a :: rest => .single a.symbol :: classItems rest
  | [] => []

/-- What can stand between the brackets, behind the mark of a complement. -/
structure ClassBody (body : List Token) : Prop where
  /-- The first closing bracket ends a class. -/
  inside : ∀ t ∈ body, t.kind ≠ .rightBracket
  /-- No range ends below its beginning. -/
  valid : ∀ item ∈ classItems body, item.Valid

/-- The symbols of some entries. -/
def symbolsOf (items : List ClassItem) : Set Symbol := {a | ∃ item ∈ items, a ∈ item.symbols}

/-- The symbols up to the blank. -/
def blanks : Set Symbol := {a | a.val ≤ 0x20}

/-- The symbols of a body; an empty one means those up to the blank. -/
def bodySymbols (body : List Token) : Set Symbol :=
  match body with
  | [] => blanks
  | a :: rest => symbolsOf (classItems (a :: rest))

/-- **What can stand between the brackets**, and the symbols it means. -/
inductive ClassText : List Token → Set Symbol → Prop where
  | plain {body : List Token} (hmark : ∀ t ∈ body.head?, t.kind ≠ .caret)
      (hbody : ClassBody body) : ClassText body (bodySymbols body)
  | complement {mark : Token} {body : List Token} (hmark : mark.kind = .caret)
      (hbody : ClassBody body) : ClassText (mark :: body) (bodySymbols body)ᶜ

/-! ## §2. Expressions. -/

/-- What a list of tokens can be part of a pattern as. -/
inductive Category where
  /-- A group, a class, or a symbol. -/
  | term
  /-- A term and at most one quantifier. -/
  | factor
  /-- Factors one after the other. -/
  | cat
  /-- Alternatives. -/
  | expr

/-- **What the grammar derives**: a list of tokens, as a member of a category,
with its language. -/
inductive Derives : Category → List Token → Language UInt8 → Prop where
  | symbol {t : Token} : t.kind = .literal ∨ t.kind = .dash →
      Derives .term [t] (oneSymbol {t.symbol})
  | dot {t : Token} : t.kind = .dot → Derives .term [t] (oneSymbol lineEndsᶜ)
  | cls {opening closing : Token} {ts : List Token} {S : Set Symbol} :
      opening.kind = .leftBracket → ClassText ts S → closing.kind = .rightBracket →
      Derives .term (opening :: ts ++ [closing]) (oneSymbol S)
  | group {opening closing : Token} {ts : List Token} {L : Language UInt8} :
      opening.kind = .leftParen → Derives .expr ts L → closing.kind = .rightParen →
      Derives .term (opening :: ts ++ [closing]) L
  | bare {ts : List Token} {L : Language UInt8} : Derives .term ts L → Derives .factor ts L
  | star {ts : List Token} {t : Token} {L : Language UInt8} :
      Derives .term ts L → t.kind = .star → Derives .factor (ts ++ [t]) L∗
  | plus {ts : List Token} {t : Token} {L : Language UInt8} :
      Derives .term ts L → t.kind = .plus → Derives .factor (ts ++ [t]) (L * L∗)
  | optional {ts : List Token} {t : Token} {L : Language UInt8} :
      Derives .term ts L → t.kind = .questionMark → Derives .factor (ts ++ [t]) (1 + L)
  | first {ts : List Token} {L : Language UInt8} : Derives .factor ts L → Derives .cat ts L
  | append {ts us : List Token} {L M : Language UInt8} :
      Derives .cat ts L → Derives .factor us M → Derives .cat (ts ++ us) (L * M)
  | alone {ts : List Token} {L : Language UInt8} : Derives .cat ts L → Derives .expr ts L
  | either {ts us : List Token} {t : Token} {L M : Language UInt8} :
      Derives .expr ts L → t.kind = .pipe → Derives .cat us M →
      Derives .expr (ts ++ t :: us) (L + M)

/-! ## §3. Rules and patterns. -/

/-- A token of a kind, if there is to be one. -/
inductive Mark (k : Kind) : Bool → List Token → Prop where
  | absent : Mark k false []
  | present {t : Token} : t.kind = k → Mark k true [t]

/-- **A rule**, tied to the line ends that it is marked with. -/
inductive RuleText (bol eol : Bool) : List Token → Language UInt8 → Prop where
  | mk {caret ts dollar : List Token} {L : Language UInt8} :
      Mark .caret bol caret → Derives .expr ts L → Mark .dollar eol dollar →
      RuleText bol eol (caret ++ ts ++ dollar) (lineStartLanguage bol * L * lineEndLanguage eol)

/-- **A pattern**: rules of which all but the last end in `$`. -/
inductive MachineText : List Token → Language UInt8 → Prop where
  | last {bol eol : Bool} {ts : List Token} {L : Language UInt8} :
      RuleText bol eol ts L → MachineText ts L
  | more {bol : Bool} {ts us : List Token} {L M : Language UInt8} :
      RuleText bol true ts L → MachineText us M → MachineText (ts ++ us) (L + M)

/-- **The rules of a pattern**, each with the line ends it is marked with and
its language. -/
inductive PatternText : List Token → List (Anchor × Language UInt8) → Prop where
  | last {bol eol : Bool} {ts : List Token} {L : Language UInt8} :
      RuleText bol eol ts L → PatternText ts [(⟨bol, eol⟩, L)]
  | more {bol : Bool} {ts us : List Token} {L : Language UInt8}
      {rules : List (Anchor × Language UInt8)} :
      RuleText bol true ts L → PatternText us rules →
      PatternText (ts ++ us) ((⟨bol, true⟩, L) :: rules)

/-- A pattern has the words of its rules. -/
theorem PatternText.machineText {ts : List Token} {rules : List (Anchor × Language UInt8)}
    (h : PatternText ts rules) : MachineText ts (rules.map Prod.snd).sum := by
  induction h with
  | last hrule =>
      rw [List.map_singleton, List.sum_singleton]
      exact .last hrule
  | more hrule _ ih =>
      rw [List.map_cons, List.sum_cons]
      exact .more hrule ih

/-- Every pattern has rules. -/
theorem MachineText.exists_patternText {ts : List Token} {L : Language UInt8}
    (h : MachineText ts L) : ∃ rules, PatternText ts rules ∧ (rules.map Prod.snd).sum = L := by
  induction h with
  | last hrule => exact ⟨_, .last hrule, by rw [List.map_singleton, List.sum_singleton]⟩
  | more hrule _ ih =>
      obtain ⟨rules, htext, hsum⟩ := ih
      exact ⟨_, .more hrule htext, by rw [List.map_cons, List.sum_cons, hsum]⟩

end LineScan
