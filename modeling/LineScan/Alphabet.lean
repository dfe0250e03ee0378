/-
  LineScan.Alphabet
  ─────────────────
  **THE 127 SYMBOLS.**

  Patterns and automata work on the bytes `0x00` to `0x7E`.  A `Symbol` is
  such a byte, with its bound in the type; a `Word` is what an automaton
  reads, and may hold any byte, since input does not come with a promise.
  `Symbol.ofByte?` is the one gate between the two.
-/
import LineScan.BitSet

namespace LineScan

/-- The number of symbols. -/
abbrev alphabetSize : Nat := 127

/-- A byte that patterns may speak about. -/
abbrev Symbol := Fin alphabetSize

/-- Input: any bytes. -/
abbrev Word := List UInt8

/-- A set of symbols. -/
abbrev SymbolSet := BitSet alphabetSize

/-- All symbols, ascending. -/
def alphabet : List Symbol := List.finRange alphabetSize

@[simp] theorem mem_alphabet (a : Symbol) : a ∈ alphabet := List.mem_finRange a

namespace Symbol

/-- The line feed. -/
def lineFeed : Symbol := 10

/-- The carriage return. -/
def carriageReturn : Symbol := 13

/-- The dash. -/
def dash : Symbol := 45

/-- The byte of a symbol. -/
def toByte (a : Symbol) : UInt8 := UInt8.ofNat a.val

/-- The symbol of a byte, if it has one. -/
def ofByte? (b : UInt8) : Option Symbol :=
  if h : b.toNat < alphabetSize then some ⟨b.toNat, h⟩ else none

@[simp] theorem toNat_toByte (a : Symbol) : (toByte a).toNat = a.val := by
  have h : a.val < 127 := a.isLt
  simp only [toByte, UInt8.toNat_ofNat']
  omega

@[simp] theorem ofByte?_toByte (a : Symbol) : ofByte? (toByte a) = some a := by
  simp [ofByte?]

theorem ofByte?_eq_some_iff {b : UInt8} {a : Symbol} : ofByte? b = some a ↔ b = toByte a := by
  constructor
  · intro h
    unfold ofByte? at h
    split at h
    · cases h
      apply UInt8.toNat_inj.1
      simp
    · cases h
  · rintro rfl
    exact ofByte?_toByte a

/-- The character whose number is the symbol. -/
def toChar (a : Symbol) : Char := Char.ofNat a.val

end Symbol

end LineScan
