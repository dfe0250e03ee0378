/-
  LineScan.Proofs.Pattern.Language
  ────────────────────────────────
  **WHAT EXPRESSIONS MATCH.**

  The language of an expression is built from one-symbol words with the
  regular operations.  A rule puts a line feed before the words of its
  expression, a line end behind them, or both; a pattern matches what one of
  its rules matches.
-/
import LineScan.Pattern.Regex
import Mathlib.Computability.Language

namespace LineScan

open Computability

/-- The words of one symbol, taken from a set. -/
def oneSymbol (S : Set Symbol) : Language UInt8 := {w | ∃ a ∈ S, w = [a.toByte]}

/-- The symbols that an edge admits. -/
def Edge.symbols (e : Edge) : Set Symbol := {a | e.admits a.toByte = true}

theorem Symbol.toByte_injective : Function.Injective Symbol.toByte := by
  intro a b h
  have := congrArg UInt8.toNat h
  rw [Symbol.toNat_toByte, Symbol.toNat_toByte] at this
  exact Fin.ext this

@[simp] theorem Edge.symbols_byte (a : Symbol) : (Edge.byte a.toByte).symbols = {a} := by
  ext b
  show (a.toByte == b.toByte) = true ↔ b = a
  rw [beq_iff_eq]
  exact ⟨fun h => (Symbol.toByte_injective h).symm, fun h => h ▸ rfl⟩

/-- **The language of an expression.** -/
def Regex.language : Regex → Language UInt8
  | .symbol a => oneSymbol {a}
  | .cls c => oneSymbol (Edge.cls c).symbols
  | .cat first second => first.language * second.language
  | .alt left right => left.language + right.language
  | .star body => body.language∗
  | .plus body => body.language * body.language∗
  | .optional body => 1 + body.language

/-- The symbols that end a line. -/
def lineEnds : Set Symbol := {Symbol.lineFeed, Symbol.carriageReturn}

theorem Edge.mem_symbols_cls {c : CharClass} {a : Symbol} :
    a ∈ (Edge.cls c).symbols ↔ (c.complement != c.set.contains a.val) = true := by
  show (c.complement != c.set.contains a.toByte.toNat) = true ↔ _
  rw [Symbol.toNat_toByte]

theorem Edge.symbols_lineEnd : (Edge.cls CharClass.lineEnd).symbols = lineEnds := by
  ext a
  rw [Edge.mem_symbols_cls]
  simp [CharClass.lineEnd, BitSet.contains_ofList, lineEnds, Fin.ext_iff]

/-- What must stand before an expression that begins a line. -/
def lineStartLanguage (bol : Bool) : Language UInt8 :=
  if bol then oneSymbol {Symbol.lineFeed} else 1

/-- What must stand behind an expression that ends a line. -/
def lineEndLanguage (eol : Bool) : Language UInt8 := if eol then oneSymbol lineEnds else 1

/-- **The language of a rule.** -/
def Rule.language (r : Rule) : Language UInt8 :=
  lineStartLanguage r.bol * r.body.language * lineEndLanguage r.eol

/-- The line ends that a rule is tied to, and its language. -/
def Rule.meaning (r : Rule) : Anchor × Language UInt8 := (r.anchor, r.language)

/-- **The language of a list of rules.** -/
def Rule.languageOf (rules : List Rule) : Language UInt8 := (rules.map Rule.language).sum

theorem Rule.languageOf_eq_sum (rules : List Rule) :
    Rule.languageOf rules = ((rules.map Rule.meaning).map Prod.snd).sum := by
  rw [List.map_map]
  rfl

theorem Rule.languageOf_cons (r : Rule) (rules : List Rule) :
    Rule.languageOf (r :: rules) = r.language + Rule.languageOf rules := by
  rw [Rule.languageOf, List.map_cons, List.sum_cons]
  rfl

theorem Rule.languageOf_singleton (r : Rule) : Rule.languageOf [r] = r.language := by
  simp [Rule.languageOf]

end LineScan
