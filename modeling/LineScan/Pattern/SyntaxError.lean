/-
  LineScan.Pattern.SyntaxError
  ────────────────────────────
  **WHY A TEXT IS NOT A PATTERN.**

  One constructor for each reason, with the byte offset that it points at.
  `message` words the reason and `render` draws the pattern with a caret under
  the place.
-/
import LineScan.Alphabet
import LineScan.Text.Emphasis
import LineScan.Text.Utf8

namespace LineScan

/-- A reason for which a text is no pattern. -/
inductive SyntaxError where
  /-- A quantifier has no expression before it. -/
  | danglingQuantifier (quantifier : Symbol) (position : Nat)
  /-- A `]` stands outside a class. -/
  | strayBracket (position : Nat)
  /-- A `^` stands neither at the beginning of a rule nor in a class. -/
  | strayCaret (position : Nat)
  /-- A group is still open where its rule ends. -/
  | unmatchedParen (position : Nat)
  /-- A `)` closes no group. -/
  | strayParen (position : Nat)
  /-- Nothing stands where an expression must begin. -/
  | emptyExpression (position : Nat)
  /-- A class is still open at the end. -/
  | unterminatedClass (position : Nat)
  /-- A range in a class ends below its beginning. -/
  | invalidRange (low high : Symbol) (position : Nat)
  /-- A byte is no symbol. -/
  | byteOutOfRange (byte : UInt8) (position : Nat)
deriving DecidableEq, Repr

namespace SyntaxError

/-- The byte offset that the error points at. -/
def position : SyntaxError → Nat
  | .danglingQuantifier _ p | .strayBracket p | .strayCaret p | .unmatchedParen p
  | .strayParen p | .emptyExpression p | .unterminatedClass p | .invalidRange _ _ p
  | .byteOutOfRange _ p => p

/-- A byte as two hexadecimal digits. -/
def hexByte (b : UInt8) : String :=
  String.ofList [Nat.digitChar (b.toNat / 16), Nat.digitChar (b.toNat % 16)]

/-- The reason in words. -/
def message : SyntaxError → String
  | .danglingQuantifier q _ => "'" ++ String.singleton q.toChar ++ "' must follow an expression"
  | .strayBracket _ => "encountered a stray ']'"
  | .strayCaret _ => "encountered a stray '^'"
  | .unmatchedParen _ => "expected ')'"
  | .strayParen _ => "encountered a ')' without a matching '('"
  | .emptyExpression _ => "expected an expression"
  | .unterminatedClass _ => "character class is never closed"
  | .invalidRange low high _ =>
      "invalid character range " ++ String.ofList [low.toChar, '-', high.toChar]
  | .byteOutOfRange b _ => "byte 0x" ++ hexByte b ++ " is outside the alphabet"

/-- The reason, the pattern, and a caret under the place. -/
def render (emphasis : Emphasis) (pattern : String) (e : SyntaxError) : String :=
  emphasis.red "error" ++ ": " ++ e.message ++ "\n | " ++ pattern ++ "\n | " ++
    String.ofList (List.replicate (columnOf pattern e.position) ' ') ++ emphasis.green "^"

end SyntaxError

end LineScan
