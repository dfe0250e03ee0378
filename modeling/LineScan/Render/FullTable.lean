/-
  LineScan.Render.FullTable
  ─────────────────────────
  **THE FULL TABLE.**

  The whole transition matrix as an array declaration, with a way to look a
  cell up, in either of two languages.  The rows are the same in both, apart
  from their brackets.
-/
import LineScan.Render.Matrix
import LineScan.Text.Layout

namespace LineScan

/-- The language of a full table. -/
inductive TableFormat where
  /-- C. -/
  | c
  /-- Rust. -/
  | rust
deriving DecidableEq, Repr

/-- How a full table is written. -/
structure FullTableOptions where
  /-- The name of the array. -/
  name : String
  /-- The language. -/
  format : TableFormat
deriving DecidableEq, Repr

/-- The name of a table that was not given another one. -/
def defaultTableName : String := "Yy_nxt"

/-- What holds unless something else is asked for. -/
def FullTableOptions.standard : FullTableOptions := ⟨defaultTableName, .c⟩

namespace FullTable

/-- The brackets around a row. -/
def brackets : TableFormat → String × String
  | .c => ("\x7b", "\x7d")
  | .rust => ("[", "]")

/-- A cell, right aligned, with the comma after it. -/
def cellText (cell : Nat) : String := padLeft 5 ' ' cell ++ ", "

/-- The line of the row with the given number. -/
def rowLine (format : TableFormat) (cells : List Nat) (number : Nat) : String :=
  "/* " ++ padLeft 5 '0' number ++ " */ " ++ (brackets format).1 ++ " " ++
    String.join (cells.map cellText) ++ (brackets format).2 ++ ","

/-- The lines of all rows. -/
def rowLines (format : TableFormat) (rows : List (List Nat)) : List String :=
  rows.zipIdx.map fun (cells, number) => rowLine format cells number

/-- The lines before the rows. -/
def opening (options : FullTableOptions) (rowCount : Nat) : List String :=
  match options.format with
  | .c =>
      [ "// yy_next(state, c) is given the current state and next character,",
        "// and evaluates to the next state.",
        "#define yy_next(state, c)    " ++ options.name ++ "[state][c]",
        "static const int " ++ options.name ++ "[][" ++ toString alphabetSize ++ "] = \x7b" ]
  | .rust =>
      [ "/// `yy_next(state, c)` is given the current state and next character,",
        "/// and evaluates to the next state.",
        "#[inline]",
        "pub const fn yy_next(state: usize, c: u8) -> u16 \x7b",
        "    " ++ options.name ++ "[state][c as usize]",
        "\x7d",
        "",
        "#[rustfmt::skip]",
        "pub static " ++ options.name ++ ": [[u16; " ++ toString alphabetSize ++ "]; " ++
          toString rowCount ++ "] = [" ]

/-- The line after the rows. -/
def closing : TableFormat → String
  | .c => "\x7d;"
  | .rust => "];"

/-- The text of a table with these rows. -/
def render (options : FullTableOptions) (rows : List (List Nat)) : String :=
  unlines (opening options rows.length ++ rowLines options.format rows ++
    [closing options.format])

end FullTable

/-- **The full table of an automaton.** -/
def Dfa.fullTable (d : Dfa) (options : FullTableOptions) : String :=
  FullTable.render options d.matrix

end LineScan
