/-
  LineScan.CharClass
  ──────────────────
  **CHARACTER CLASSES AND EDGES.**

  A `CharClass` is a set of symbols, read as it stands or complemented.  The
  complement is taken among all 256 bytes, so a complemented class admits
  every byte outside the alphabet; automata refuse such bytes before they ask
  an edge.

  An `Edge` is what a node of an automaton asks for before it lets a run
  pass: nothing, one byte, or a byte of a class.
-/
import LineScan.Alphabet
import LineScan.Text.Caret

namespace LineScan

/-! ## §1. Classes. -/

/-- A set of symbols or its complement. -/
structure CharClass where
  /-- The stored set, before complementing. -/
  set : SymbolSet
  /-- Whether the class holds the bytes that are not in `set`. -/
  complement : Bool
deriving DecidableEq

namespace CharClass

/-- The class without bytes. -/
def empty : CharClass := ⟨BitSet.empty _, false⟩

/-- Whether a byte belongs to the class. -/
def admits (cls : CharClass) (b : UInt8) : Bool := cls.complement != cls.set.contains b.toNat

/-- The two bytes that end a line: line feed and carriage return. -/
def lineEnd : CharClass := ⟨BitSet.ofList [Symbol.lineFeed, Symbol.carriageReturn], false⟩

/-- Every byte that does not end a line. -/
def dot : CharClass := ⟨BitSet.ofList [Symbol.lineFeed, Symbol.carriageReturn], true⟩

/-- The symbols up to the blank, which is what an empty pair of brackets
means. -/
def blanks : SymbolSet := (BitSet.empty _).insertRange 0 0x20

/-- The class of a list of numbers, or the first of them that is no symbol. -/
def ofNumbers? (numbers : List Nat) (complement : Bool) : Except Fault CharClass :=
  (BitSet.ofList? alphabetSize numbers).map (⟨·, complement⟩)

/-- The class between brackets, in caret notation. -/
def text (cls : CharClass) : String :=
  "[" ++ (if cls.complement then "^" else "") ++
    String.join (cls.set.members.map fun a => caretForm (Symbol.toByte a)) ++ "]"

end CharClass

/-! ## §2. Edges. -/

/-- What a node asks for before a run may leave it. -/
inductive Edge where
  /-- Nothing is consumed. -/
  | epsilon
  /-- Exactly this byte is consumed. -/
  | byte (b : UInt8)
  /-- One byte of the class is consumed. -/
  | cls (c : CharClass)
deriving DecidableEq

namespace Edge

/-- Whether the edge consumes this byte. -/
def admits : Edge → UInt8 → Bool
  | .epsilon, _ => false
  | .byte expected, b => expected == b
  | .cls c, b => c.admits b

/-- Whether the edge consumes nothing. -/
def isEpsilon : Edge → Bool
  | .epsilon => true
  | _ => false

/-- The edge as the node listing shows it. -/
def text : Edge → String
  | .epsilon => "EPSILON "
  | .byte b => "'" ++ caretForm b ++ "'"
  | .cls c => c.text

end Edge

end LineScan
