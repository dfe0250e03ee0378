/-
  LineScan.Proofs.Render.PackedProgram
  ────────────────────────────────────
  **THE PROGRAM OF A COMPRESSED TABLE.**

  The lexemes of a compressed table are read as declarations: one array for
  every row that has one, then the array of pointers, then the decoder.  Each
  of them takes a new name and uses only names before it, so the declarations
  make a program (`foldlM_declarations`), and that program holds the stored
  rows (`holds_program`).
-/
import LineScan.Proofs.Render.PackedLexemes

namespace LineScan

open C

namespace PackedTable

/-! ## §1. Lexemes as declarations. -/

/-- Entries are read one after the other. -/
theorem items?_flatMap {α : Type} (item? : Lexeme → Option α) (lexeme : α → Lexeme)
    (hitem : ∀ x, item? (lexeme x) = some x) (hclose : item? (.mark .closeBrace) = none)
    (xs : List α) (rest : List Lexeme) :
    items? item? (xs.flatMap (fun x => [lexeme x, .mark .comma]) ++ .mark .closeBrace :: rest) =
      some (xs, rest) := by
  induction xs with
  | nil => rw [List.flatMap_nil, List.nil_append, items?]
  | cons x xs ih =>
      have hx : lexeme x ≠ .mark .closeBrace := by
        intro h
        have := hitem x
        rw [h, hclose] at this
        cases this
      rw [List.flatMap_cons, List.append_assoc, List.cons_append, List.cons_append,
        List.nil_append, items?, hitem]
      · show (items? item? _ >>= _) = _
        rw [ih]
        rfl
      · exact hx

/-- An array of cells is read as one. -/
theorem declaration?_cells (x : String) {values : List Nat} (hvalues : values ≠ [])
    (rest : List Lexeme) :
    declaration? (cellsLexemes x values ++ rest) = some (.cells x values, rest) := by
  have hitems := items?_flatMap cell? .number (fun _ => rfl) rfl values (.mark .semicolon :: rest)
  have htext : cellsLexemes x values ++ rest =
      .keyword .storage :: .keyword .cell :: .name x :: .mark .openBracket ::
        .mark .closeBracket :: .mark .assign :: .mark .openBrace ::
        (values.flatMap valueLexemes ++ .mark .closeBrace :: .mark .semicolon :: rest) := by
    simp only [cellsLexemes, List.append_assoc, List.cons_append, List.nil_append]
  rw [htext, declaration?]
  show (items? cell? (values.flatMap (fun v => [.number v, .mark .comma]) ++ _) >>= _) = _
  rw [hitems]
  exact if_neg hvalues

/-- An array of pointers is read as one. -/
theorem declaration?_pointers (x : String) {targets : List (Option String)}
    (htargets : targets ≠ []) (rest : List Lexeme) :
    declaration? (pointersLexemes x targets ++ rest) =
      some (.pointers x targets.length targets, rest) := by
  have hitem : ∀ t, target? (targetLexeme t) = some t := by
    intro t
    cases t <;> rfl
  have hitems := items?_flatMap target? targetLexeme hitem rfl targets (.mark .semicolon :: rest)
  have htext : pointersLexemes x targets ++ rest =
      .keyword .storage :: .keyword .cell :: .mark .star :: .name x :: .mark .openBracket ::
        .number targets.length :: .mark .closeBracket :: .mark .assign :: .mark .openBrace ::
        (targets.flatMap targetLexemes ++ .mark .closeBrace :: .mark .semicolon :: rest) := by
    simp only [pointersLexemes, List.append_assoc, List.cons_append, List.nil_append]
  rw [htext, declaration?]
  show (items? target? (targets.flatMap (fun t => [targetLexeme t, .mark .comma]) ++ _) >>= _) = _
  rw [hitems]
  exact if_neg htargets

/-- The decoder is read as itself. -/
theorem declaration?_decoder (name : String) :
    declaration? (headLexemes ++ pointerLexemes name ++ bodyLexemes) =
      some (.function (decoder name), []) := rfl

/-- Lexemes are read as declarations, given as many steps as there are
declarations. -/
structure Declares (ts : List Lexeme) (ds : List Declaration) : Prop where
  /-- No declaration is without a lexeme. -/
  length_le : ds.length ≤ ts.length
  /-- They are read. -/
  read : ∀ n, ds.length ≤ n → declarations? n ts = some ds

theorem Declares.nil : Declares [] [] :=
  ⟨Nat.le_refl _, fun n _ => by cases n <;> rfl⟩

theorem Declares.cons {rest : List Lexeme} {d : Declaration} {ds : List Declaration}
    (ts : List Lexeme) (hts : ts ≠ []) (hd : declaration? (ts ++ rest) = some (d, rest))
    (h : Declares rest ds) : Declares (ts ++ rest) (d :: ds) := by
  obtain ⟨t, ts, rfl⟩ := List.exists_cons_of_ne_nil hts
  refine ⟨?_, ?_⟩
  · have := h.length_le
    rw [List.length_append, List.length_cons, List.length_cons]
    omega
  · intro n hn
    cases n with
    | zero => exact absurd hn (Nat.not_succ_le_zero _)
    | succ n =>
        rw [List.cons_append] at hd ⊢
        rw [declarations?, hd]
        · show (declarations? n rest >>= _) = _
          rw [h.read n (Nat.le_of_succ_le_succ hn)]
          rfl
        · intro h
          cases h

/-! ## §2. The declarations of a table. -/

/-- The arrays of the rows, of which the first has the given number. -/
def cellsFrom (name : String) : Nat → List PackedRow → List (String × List Nat)
  | _, [] => []
  | number, row :: rows =>
      match rowTarget name number row with
      | none => cellsFrom name (number + 1) rows
      | some x => (x, row.values) :: cellsFrom name (number + 1) rows

/-- A row that has an array is not stored as nothing. -/
theorem values_ne_nil {name target : String} {number : Nat} {row : PackedRow}
    (h : rowTarget name number row = some target) : row.values ≠ [] := by
  cases row with
  | empty => cases h
  | sparse pairs => exact List.cons_ne_nil _ _
  | dense cells => exact List.cons_ne_nil _ _

/-- **The arrays of rows are declared**, before whatever follows. -/
theorem Declares.rows {rest : List Lexeme} {ds : List Declaration} (h : Declares rest ds)
    (name : String) (number : Nat) (rows : List PackedRow) :
    Declares
      ((rows.zipIdx number).flatMap (fun entry => rowLexemes name entry.2 entry.1) ++ rest)
      ((cellsFrom name number rows).map (fun entry => .cells entry.1 entry.2) ++ ds) := by
  induction rows generalizing number with
  | nil => exact h
  | cons row rows ih =>
      have hrest := ih (number + 1)
      rw [List.zipIdx_cons, List.flatMap_cons, List.append_assoc, rowLexemes, cellsFrom]
      cases htarget : rowTarget name number row with
      | none => exact hrest
      | some x =>
          exact hrest.cons _ (List.cons_ne_nil _ _)
            (declaration?_cells x (values_ne_nil htarget) _)

/-- The lexemes of a table. -/
def tableLexemes (name : String) (rows : List PackedRow) : List Lexeme :=
  (rows.zipIdx.flatMap fun entry => rowLexemes name entry.2 entry.1) ++
    (pointersLexemes name (targetsOf name rows) ++
      (headLexemes ++ pointerLexemes name ++ bodyLexemes))

/-- The declarations of a table. -/
def declarations (name : String) (rows : List PackedRow) : List Declaration :=
  (cellsFrom name 0 rows).map (fun entry => .cells entry.1 entry.2) ++
    [.pointers name rows.length (targetsOf name rows), .function (decoder name)]

theorem declares_table (name : String) {rows : List PackedRow} (hrows : rows ≠ []) :
    Declares (tableLexemes name rows) (declarations name rows) := by
  have htargets : targetsOf name rows ≠ [] := by
    intro h
    have := length_targetsOf name rows
    rw [h] at this
    exact hrows (List.length_eq_zero_iff.1 this.symm)
  have hdecoder : Declares (headLexemes ++ pointerLexemes name ++ bodyLexemes)
      [.function (decoder name)] := by
    have h := Declares.nil.cons (headLexemes ++ pointerLexemes name ++ bodyLexemes)
      (List.cons_ne_nil _ _) (by rw [List.append_nil]; exact declaration?_decoder name)
    rw [List.append_nil] at h
    exact h
  have hpointers := hdecoder.cons (pointersLexemes name (targetsOf name rows))
    (List.cons_ne_nil _ _) (declaration?_pointers name htargets _)
  rw [length_targetsOf] at hpointers
  exact hpointers.rows name 0 rows

/-- **The lexemes of the text of a table.** -/
theorem lexemes?_render {options : PackedTableOptions} (hname : IsName options.name)
    (rows : List PackedRow) :
    lexemes? (render options rows) = some (tableLexemes options.name rows) := by
  have hempty : Prints [""] [] := rfl
  have hrows : Prints (rows.zipIdx.flatMap fun entry => rowLines options entry.2 entry.1)
      (rows.zipIdx.flatMap fun entry => rowLexemes options.name entry.2 entry.1) :=
    Prints.flatMap fun entry _ => prints_rowLines hname entry.2 entry.1
  have hall := (((hrows.append hempty).append (prints_pointerLines hname rows)).append
    hempty).append (prints_decoderLines hname)
  have htext : scan? .blank (render options rows).toList =
      some (tableLexemes options.name rows, .blank) := by
    simp only [List.append_nil, List.append_assoc] at hall
    simp only [render, tableLexemes, List.append_assoc]
    exact hall
  rw [lexemes?, htext]

/-! ## §3. The program. -/

/-- A name that the decoder leaves free. -/
structure UsableName (name : String) : Prop where
  /-- It is a name. -/
  isName : IsName name
  /-- The decoder does not use it for something else. -/
  not_used : name ∉ ["yy_next", "cur_state", "c", "p", "i"]

instance (name : String) : Decidable (UsableName name) :=
  decidable_of_iff (IsName name ∧ name ∉ ["yy_next", "cur_state", "c", "p", "i"])
    ⟨fun h => ⟨h.1, h.2⟩, fun h => ⟨h.isName, h.not_used⟩⟩

/-- **The program of a table.** -/
def program (name : String) (rows : List PackedRow) : Program where
  cells := cellsFrom name 0 rows
  tables := [(name, targetsOf name rows)]
  functions := [decoder name]

variable {name target : String} {rows : List PackedRow} {row : PackedRow}
variable {number start : Nat}

theorem rowTarget_eq_some (h : rowTarget name number row = some target) :
    target = name ++ toString number := by
  cases row with
  | empty => cases h
  | sparse pairs => exact (Option.some.inj h).symm
  | dense cells => exact (Option.some.inj h).symm

/-- Every array of a row has a number after its name. -/
theorem exists_of_mem_cellsFrom {entry : String × List Nat}
    (h : entry ∈ cellsFrom name start rows) :
    ∃ number, start ≤ number ∧ entry.1 = name ++ toString number := by
  induction rows generalizing start with
  | nil => cases h
  | cons row rows ih =>
      have hrest : entry ∈ cellsFrom name (start + 1) rows →
          ∃ number, start ≤ number ∧ entry.1 = name ++ toString number := by
        intro h
        obtain ⟨number, hle, hentry⟩ := ih h
        exact ⟨number, Nat.le_of_succ_le hle, hentry⟩
      rw [cellsFrom] at h
      cases htarget : rowTarget name start row with
      | none =>
          rw [htarget] at h
          exact hrest h
      | some x =>
          rw [htarget] at h
          rcases List.mem_cons.1 h with rfl | h
          · exact ⟨start, Nat.le_refl _, rowTarget_eq_some htarget⟩
          · exact hrest h

theorem lookup_cellsFrom_eq_none {x : String}
    (h : ∀ number : Nat, x ≠ name ++ toString number) (start : Nat) (rows : List PackedRow) :
    (cellsFrom name start rows).lookup x = none := by
  rw [List.lookup_eq_none_iff]
  intro entry hentry
  obtain ⟨number, _, hnumber⟩ := exists_of_mem_cellsFrom hentry
  rw [bne_iff_ne, hnumber]
  exact h number

/-- **The array of a row is found** under its name. -/
theorem lookup_cellsFrom (hrow : rows[number]? = some row)
    (htarget : rowTarget name (start + number) row = some target) :
    (cellsFrom name start rows).lookup target = some row.values := by
  induction rows generalizing start number with
  | nil => cases hrow
  | cons first rows ih =>
      cases number with
      | zero =>
          cases hrow
          rw [cellsFrom, show rowTarget name start row = some target from htarget,
            List.lookup_cons_self]
      | succ number =>
          have hrest : (cellsFrom name (start + 1) rows).lookup target = some row.values :=
            ih hrow (by rw [← htarget]; congr 1; omega)
          rw [cellsFrom]
          cases hfirst : rowTarget name start first with
          | none => exact hrest
          | some x =>
              -- the first array has another number
              have hne : (target == x) = false := by
                rw [beq_eq_false_iff_ne, rowTarget_eq_some htarget, rowTarget_eq_some hfirst]
                intro h
                have := append_toString_inj h
                omega
              rw [List.lookup_cons, hne]
              exact hrest

/-- The name itself has no number after it. -/
theorem lookup_cellsFrom_name (name : String) (rows : List PackedRow) :
    (cellsFrom name 0 rows).lookup name = none := by
  refine lookup_cellsFrom_eq_none ?_ 0 rows
  intro number h
  have hlength := congrArg (fun s : String => s.toList.length) h
  rw [String.toList_append, List.length_append, toList_toString] at hlength
  have := Nat.length_toDigits_pos (b := 10) (n := number)
  omega

/-- **The program holds the stored rows.** -/
theorem holds_program (name : String) (rows : List PackedRow) :
    Holds (program name rows) name rows where
  not_cells := lookup_cellsFrom_name name rows
  pointers := List.lookup_cons_self
  cells := fun hrow htarget => lookup_cellsFrom hrow (by rw [Nat.zero_add]; exact htarget)
  decoder := rfl

/-- The arrays of the rows are declared one after the other. -/
theorem foldlM_cells (name : String) (start : Nat) (rows : List PackedRow)
    (cells : List (String × List Nat))
    (hcells : ∀ entry ∈ cells, ∃ number, number < start ∧ entry.1 = name ++ toString number) :
    ((cellsFrom name start rows).map fun entry => Declaration.cells entry.1 entry.2).foldlM
        Program.declare? ⟨cells, [], []⟩ =
      some ⟨cells ++ cellsFrom name start rows, [], []⟩ := by
  induction rows generalizing start cells with
  | nil =>
      rw [cellsFrom, List.append_nil]
      rfl
  | cons row rows ih =>
      have hnext : ∀ entry ∈ cells, ∃ number, number < start + 1 ∧
          entry.1 = name ++ toString number := by
        intro entry hentry
        obtain ⟨number, hlt, hnumber⟩ := hcells entry hentry
        exact ⟨number, Nat.lt_succ_of_lt hlt, hnumber⟩
      rw [cellsFrom]
      cases htarget : rowTarget name start row with
      | none => exact ih (start + 1) cells hnext
      | some x =>
          have hx := rowTarget_eq_some htarget
          -- the number is larger than all before it
          have hlookup : cells.lookup x = none := by
            rw [List.lookup_eq_none_iff]
            intro entry hentry
            obtain ⟨number, hlt, hnumber⟩ := hcells entry hentry
            rw [bne_iff_ne, hnumber, hx]
            intro h
            have := append_toString_inj h
            omega
          have hfree : ¬ Program.declares ⟨cells, [], []⟩ x = true := by
            simp [Program.declares, Program.contents?, hlookup]
          have hdeclare : Program.declare? ⟨cells, [], []⟩ (.cells x row.values) =
              some ⟨cells ++ [(x, row.values)], [], []⟩ := if_neg hfree
          have hall : ∀ entry ∈ cells ++ [(x, row.values)], ∃ number, number < start + 1 ∧
              entry.1 = name ++ toString number := by
            intro entry hentry
            rcases List.mem_append.1 hentry with hentry | hentry
            · exact hnext entry hentry
            · rw [List.mem_singleton.1 hentry]
              exact ⟨start, Nat.lt_succ_self _, hx⟩
          have hrest := ih (start + 1) _ hall
          rw [List.append_assoc, List.singleton_append] at hrest
          rw [List.map_cons, List.foldlM_cons, hdeclare]
          exact hrest

/-- The array of pointers is declared: it has a new name, and points to arrays
before it. -/
theorem declare?_pointers (name : String) (rows : List PackedRow) :
    Program.declare? ⟨cellsFrom name 0 rows, [], []⟩
        (.pointers name rows.length (targetsOf name rows)) =
      some ⟨cellsFrom name 0 rows, [(name, targetsOf name rows)], []⟩ := by
  have hfree : ¬ Program.declares ⟨cellsFrom name 0 rows, [], []⟩ name = true := by
    simp [Program.declares, Program.contents?, lookup_cellsFrom_name]
  have htargets : ∀ y ∈ (targetsOf name rows).filterMap id,
      ((cellsFrom name 0 rows).lookup y).isSome = true := by
    intro y hy
    obtain ⟨target, htarget, hy⟩ := List.mem_filterMap.1 hy
    obtain ⟨⟨row, number⟩, hrow, hentry⟩ := List.mem_map.1 htarget
    have hsome : rowTarget name (0 + number) row = some y := by
      rw [Nat.zero_add]
      exact hentry.trans hy
    rw [lookup_cellsFrom (List.mem_zipIdx_iff_getElem?.1 hrow) hsome]
    rfl
  have hlength : (targetsOf name rows).length ≤ rows.length := Nat.le_of_eq (length_targetsOf _ _)
  rw [Program.declare?, if_neg hfree, if_pos ⟨hlength, htargets⟩, length_targetsOf, Nat.sub_self,
    List.replicate_zero, List.append_nil]
  rfl

/-- The decoder is declared: it names its variables differently, and besides
them uses only the array of pointers. -/
theorem declare?_decoder (hname : UsableName name) (rows : List PackedRow) :
    Program.declare? ⟨cellsFrom name 0 rows, [(name, targetsOf name rows)], []⟩
        (.function (decoder name)) =
      some (program name rows) := by
  have hnext : (cellsFrom name 0 rows).lookup "yy_next" = none := by
    refine lookup_cellsFrom_eq_none ?_ 0 rows
    intro number h
    have := getLast?_append_toString name number
    rw [← h] at this
    cases this
  have hne : ¬ "yy_next" = name := fun h => hname.not_used (h ▸ List.mem_cons_self)
  have hfree : ¬ Program.declares ⟨cellsFrom name 0 rows, [(name, targetsOf name rows)], []⟩
      (decoder name).name = true := by
    simp [Program.declares, Program.contents?, decoder, hnext, hne]
  have hown : (decoder name).ownNames.Nodup := by
    show ["cur_state", "c", "p", "i"].Nodup
    decide +kernel
  have hused : ∀ x ∈ (decoder name).usedNames, x ∈ (decoder name).ownNames ∨
      (Program.contents? ⟨cellsFrom name 0 rows, [(name, targetsOf name rows)], []⟩ x).isSome =
        true := by
    intro x hx
    have hx : x = name ∨ x ∈ (decoder name).ownNames := by
      simp [Function.usedNames, Function.ownNames, decoder, namesOf, rowStmt, searchStmt,
        compareStmt, Expr.names, Stmt.names] at hx ⊢
      tauto
    rcases hx with rfl | hx
    · right
      simp [Program.contents?, lookup_cellsFrom_name]
    · exact .inl hx
  rw [Program.declare?, if_neg hfree, if_pos ⟨hown, hused⟩]
  rfl

/-- **The text of a table is read as its program.** -/
theorem read?_render {options : PackedTableOptions} (hname : UsableName options.name)
    {rows : List PackedRow} (hrows : rows ≠ []) :
    read? (render options rows) = some (program options.name rows) := by
  have hdeclares := declares_table options.name hrows
  have hcells := foldlM_cells options.name 0 rows [] fun _ h => absurd h List.not_mem_nil
  rw [read?, lexemes?_render hname.isName]
  show (declarations? _ _ >>= _) = _
  rw [hdeclares.read _ hdeclares.length_le]
  show (declarations options.name rows).foldlM Program.declare? _ = _
  rw [declarations, List.foldlM_append]
  show (List.foldlM Program.declare? ⟨[], [], []⟩ _ >>= _) = _
  rw [hcells]
  show (List.foldlM Program.declare? ⟨cellsFrom options.name 0 rows, [], []⟩ _) = _
  rw [List.foldlM_cons, declare?_pointers]
  show (List.foldlM Program.declare? _ [_]) = _
  rw [List.foldlM_cons, declare?_decoder hname]
  rfl

end PackedTable
end LineScan
