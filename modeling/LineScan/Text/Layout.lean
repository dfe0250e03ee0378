/-
  LineScan.Text.Layout
  ────────────────────
  **LINES AND COLUMNS.**

  How the renderings lay text out: numbers padded to a column on the left,
  lists broken into rows of equal length, and lines that each end in a line
  feed.
-/

namespace LineScan

variable {α : Type}

/-- A number in decimal, filled up on the left to at least `width`
characters. -/
def padLeft (width : Nat) (fill : Char) (n : Nat) : String :=
  String.ofList ((toString n).toList.leftpad width fill)

/-- The text of a list of lines, each ended by a line feed. -/
def unlines (lines : List String) : String := String.join (lines.map (· ++ "\n"))

@[simp] theorem unlines_append (l m : List String) :
    unlines (l ++ m) = unlines l ++ unlines m := by
  simp [unlines, String.join_append]

/-- A list in rows of `width` entries; the last row may be shorter.  With
`width = 0` every entry stands alone. -/
def rowsOf (width : Nat) (entries : List α) : List (List α) :=
  match entries with
  | [] => []
  | x :: rest => (x :: rest.take (width - 1)) :: rowsOf width (rest.drop (width - 1))
termination_by entries.length
decreasing_by
  exact Nat.lt_succ_of_le (Nat.le_trans (Nat.le_of_eq List.length_drop) (Nat.sub_le _ _))

/-- Breaking into rows loses nothing and keeps the order. -/
theorem flatten_rowsOf (width : Nat) (entries : List α) :
    (rowsOf width entries).flatten = entries := by
  fun_induction rowsOf width entries with
  | case1 => rfl
  | case2 x rest ih => simp [ih]

end LineScan
