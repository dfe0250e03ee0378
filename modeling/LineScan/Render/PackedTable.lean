/-
  LineScan.Render.PackedTable
  ───────────────────────────
  **THE COMPRESSED TABLE.**

  Most cells of a transition matrix are 0.  The compressed table keeps, for
  each row, what is needed to look a cell up:

      empty    a row of zeros is not stored at all
      sparse   few cells other than 0: their number, then symbol and cell of
               each
      dense    more of them than a threshold: a zero, then all cells

  Since a sparse row has at least one pair, its number is never 0, and the
  first entry of a row tells the two layouts apart.  The text declares one
  array for each stored row, an array of pointers to them, and a function
  that looks a cell up.
-/
import LineScan.Render.FullTable
import LineScan.Text.Layout

namespace LineScan

/-! ## §1. Rows. -/

/-- How a compressed table is written. -/
structure PackedTableOptions where
  /-- The name that the names of the arrays begin with. -/
  name : String
  /-- Rows with more cells other than 0 than this are stored dense. -/
  threshold : Nat
  /-- Whether symbols are written as numbers. -/
  numbers : Bool
deriving DecidableEq, Repr

/-- What holds unless something else is asked for. -/
def PackedTableOptions.standard : PackedTableOptions := ⟨defaultTableName, 4, false⟩

/-- A row as it is stored. -/
inductive PackedRow where
  /-- A row of zeros. -/
  | empty
  /-- The cells other than 0, with their symbols. -/
  | sparse (pairs : List (Symbol × Nat))
  /-- All cells. -/
  | dense (cells : List Nat)
deriving DecidableEq

namespace PackedRow

/-- The cells other than 0, with their symbols, ascending. -/
def pairsOf (cells : List Nat) : List (Symbol × Nat) :=
  (alphabet.zip cells).filter fun pair => pair.2 != 0

/-- **Stores a row.** -/
def ofCells (threshold : Nat) (cells : List Nat) : PackedRow :=
  match pairsOf cells with
  | [] => .empty
  | pairs => if pairs.length > threshold then .dense cells else .sparse pairs

end PackedRow

/-! ## §2. Text. -/

namespace PackedTable

/-- Entries to a line. -/
def entriesPerLine : Nat := 10

/-- The storage class and type of every array. -/
def declarator : String := "YYPRIVATE YY_TTYPE "

/-- A symbol as an integer literal: a character between quotes where it can
be printed, else, or when numbers are asked for, its number. -/
def symbolText (numbers : Bool) (a : Symbol) : String :=
  if numbers ∨ a.val < 0x20 then toString a.val
  else
    match a.toChar with
    | '\'' => "'\\''"
    | '\\' => "'\\\\'"
    | c => String.ofList ['\'', c, '\'']

/-- The first entry of a stored row. -/
def leadText : PackedRow → String
  | .sparse pairs => toString pairs.length
  | .empty | .dense _ => "0"

/-- The other entries of a stored row. -/
def entryTexts (numbers : Bool) : PackedRow → List String
  | .empty => []
  | .sparse pairs => pairs.map fun (a, cell) => symbolText numbers a ++ "," ++ toString cell
  | .dense cells => cells.map toString

/-- Entries in indented lines. -/
def entryLines (entries : List String) : List String :=
  (rowsOf entriesPerLine entries).map fun line => "          " ++ ", ".intercalate line ++ ","

/-- The name of the array of a row. -/
def rowName (options : PackedTableOptions) (number : Nat) : String :=
  options.name ++ toString number

/-- The declaration of a row; nothing for an empty one. -/
def rowLines (options : PackedTableOptions) (number : Nat) (row : PackedRow) : List String :=
  match row with
  | .empty => []
  | row =>
      [declarator ++ rowName options number ++ "[] = \x7b " ++ leadText row ++ ","] ++
        entryLines (entryTexts options.numbers row) ++ ["\x7d;"]

/-- The entry of a row in the array of pointers. -/
def pointerText (options : PackedTableOptions) (number : Nat) : PackedRow → String
  | .empty => "NULL"
  | _ => rowName options number

/-- The array of pointers. -/
def pointerLines (options : PackedTableOptions) (rows : List PackedRow) : List String :=
  [declarator ++ "*" ++ options.name ++ "[" ++ toString rows.length ++ "] = \x7b"] ++
    entryLines (rows.zipIdx.map fun (row, number) => pointerText options number row) ++ ["\x7d;"]

/-- The function that looks a cell up. -/
def decoderLines (options : PackedTableOptions) : List String :=
  [ declarator ++ "yy_next(int cur_state, unsigned int c)",
    "\x7b",
    "    YY_TTYPE *p = " ++ options.name ++ "[cur_state];",
    "    int i;",
    "    if (p) \x7b",
    "        if ((i = *p++) == 0)",
    "            return p[c];",
    "        for (; --i >= 0; p += 2)",
    "            if (c == p[0])",
    "                return p[1];",
    "    \x7d",
    "    return 0;",
    "\x7d" ]

/-- The text of a table with these rows. -/
def render (options : PackedTableOptions) (rows : List PackedRow) : String :=
  unlines
    (rows.zipIdx.flatMap (fun (row, number) => rowLines options number row) ++ [""] ++
      pointerLines options rows ++ [""] ++ decoderLines options)

/-- The size that the log reports for a table: for every stored row one, and
one for each of its further entries, a pair counting as one entry. -/
def reportedCells (rows : List PackedRow) : Nat :=
  rows.foldr (fun row n => rowSize row + n) 0
where
  /-- The size reported for one row. -/
  rowSize : PackedRow → Nat
    | .empty => 0
    | .sparse pairs => 1 + pairs.length
    | .dense cells => 1 + cells.length

end PackedTable

namespace Dfa

/-- The rows of an automaton as they are stored. -/
def packedRows (d : Dfa) (threshold : Nat) : List PackedRow :=
  d.matrix.map (PackedRow.ofCells threshold)

/-- **The compressed table of an automaton.** -/
def packedTable (d : Dfa) (options : PackedTableOptions) : String :=
  PackedTable.render options (d.packedRows options.threshold)

end Dfa

end LineScan
