/-
  LineScan.Main
  ─────────────
  The command: hands the arguments to `CommandLine.run`, writes what it
  returns, and exits with its code.
-/
import LineScan.CommandLine

open LineScan CommandLine

/-- Runs the command line. -/
def main (args : List String) : IO UInt32 := do
  let stdout ← IO.getStdout
  let emphasis := emphasisOf (← IO.getEnv "NO_COLOR") (← IO.getEnv "CLICOLOR_FORCE")
    (← IO.getEnv "CLICOLOR") (← stdout.isTty)
  let outcome := run emphasis args
  stdout.putStr outcome.out
  IO.eprint outcome.err
  return outcome.code.toUInt32
