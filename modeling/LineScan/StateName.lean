/-
  LineScan.StateName
  ──────────────────
  **NAMES FOR STATES.**

  States are numbered from zero and shown as `A`, `B`, …, `Z`, `AA`, `AB`, …:
  the name of state `i` is `i + 1` written in bijective base 26, whose digits
  are the letters `A` (one) to `Z` (twenty-six).
-/

namespace LineScan

/-- A number in bijective base 26, most significant letter first; zero has no
letters. -/
def bijectiveLetters : Nat → List Char
  | 0 => []
  | n + 1 => bijectiveLetters (n / 26) ++ [Char.ofNat (65 + n % 26)]
termination_by n => n
decreasing_by omega

/-- The name shown for the state with this number. -/
def stateName (index : Nat) : String := String.ofList (bijectiveLetters (index + 1))

example : stateName 0 = "A" := by decide +kernel
example : stateName 25 = "Z" := by decide +kernel
example : stateName 26 = "AA" := by decide +kernel
example : stateName 702 = "AAA" := by decide +kernel

end LineScan
