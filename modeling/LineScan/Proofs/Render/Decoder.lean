/-
  LineScan.Proofs.Render.Decoder
  ──────────────────────────────
  **WHAT THE DECODER RETURNS.**

  The function at the end of a compressed table gets a row and a symbol.  It
  takes the row's pointer, and with it the first number of the row:

      no pointer       the cell is 0
      a zero           the cells follow, and the symbol is the position
      a count          so many pairs follow, and they are searched in turn

  `rounds_search` is the search: with `done` behind the pointer and `todo`
  before it, the loop finds what is to be found in `todo`.  The pointer ends
  at most one place after the last number, so no step is without a meaning.
-/
import LineScan.Proofs.C.Semantics
import LineScan.Proofs.Render.PackedRows

namespace LineScan

open C

namespace PackedTable

/-! ## §1. The function. -/

/-- Compares the symbol with that of the pair under the pointer. -/
def compareStmt : Stmt :=
  .branch (.equal (.name "c") (.index (.name "p") (.number 0)))
    (.ret (.index (.name "p") (.number 1)))

/-- Goes through the pairs. -/
def searchStmt : Stmt :=
  .loop none (some (.atLeast (.decrement "i") (.number 0))) (some (.addAssign "p" (.number 2)))
    compareStmt

/-- Looks the symbol up in the row under the pointer. -/
def rowStmt : Stmt :=
  .seq
    (.branch (.equal (.assign "i" (.deref (.increment "p"))) (.number 0))
      (.ret (.index (.name "p") (.name "c"))))
    (.seq searchStmt .skip)

/-- **The decoder** for the arrays of a name. -/
def decoder (name : String) : Function where
  name := "yy_next"
  parameters := [("cur_state", .integer), ("c", .unsigned)]
  locals := [⟨"p", .pointer, some (.index (.name name) (.name "cur_state"))⟩, ⟨"i", .integer, none⟩]
  body := .seq (.branch (.name "p") rowStmt) (.seq (.ret (.number 0)) .skip)

/-- The variables of the decoder. -/
def frame (r : Nat) (a : Symbol) (p i : Option Value) : Locals :=
  [ ("cur_state", ⟨.integer, some (.int r)⟩), ("c", ⟨.unsigned, some (.int a.val)⟩),
    ("p", ⟨.pointer, p⟩), ("i", ⟨.integer, i⟩) ]

variable {P : Program} {r : Nat} {a : Symbol} {p i : Option Value} {v : Value} {n : Int}
variable {x : String} {values : List Nat} {k : Nat}

theorem fetch_c : P.fetch (frame r a p i) "c" = .ok (.int a.val) := by
  simp [Program.fetch, frame, List.lookup_cons]

theorem fetch_p : P.fetch (frame r a (some v) i) "p" = .ok v := by
  simp [Program.fetch, frame, List.lookup_cons]

theorem fetch_i : P.fetch (frame r a p (some v)) "i" = .ok v := by
  simp [Program.fetch, frame, List.lookup_cons]

theorem store_p (h : P.fits .pointer v = true) :
    P.store (frame r a p i) "p" v = .ok (frame r a (some v) i) := by
  simp [Program.store, frame, List.lookup_cons, h]

theorem store_i : P.store (frame r a p i) "i" (.int n) = .ok (frame r a p (some (.int n))) := by
  simp [Program.store, frame, List.lookup_cons, Program.fits]

/-! ## §2. One pair. -/

/-- One is taken from the count, and compared with 0. -/
theorem test_count (P : Program) (r : Nat) (a : Symbol) (p : Option Value) (n : Int) :
    P.test (some (.atLeast (.decrement "i") (.number 0))) (frame r a p (some (.int n))) =
      .ok (decide (n ≥ 1), frame r a p (some (.int (n - 1)))) := by
  rw [Program.test_some (Program.eval_atLeast (Program.eval_decrement fetch_i store_i)
    (Program.eval_number P 0 _))]
  congr 2
  by_cases hn : n ≥ 1
  · have : n - 1 ≥ ((0 : Nat) : Int) := by omega
    rw [if_pos this, decide_eq_true hn]
    rfl
  · have : ¬ n - 1 ≥ ((0 : Nat) : Int) := by omega
    rw [if_neg this, decide_eq_false hn]
    rfl

/-- The pointer moves on to the next pair. -/
theorem effect_next (hx : P.cells.lookup x = some values) (hk : k + 2 ≤ values.length) :
    P.effect (some (.addAssign "p" (.number 2))) (frame r a (some (.pointer x k)) i) =
      .ok (frame r a (some (.pointer x (k + 2))) i) := by
  have hstore := store_p (r := r) (a := a) (p := some (.pointer x k)) (i := i)
    (Program.fits_pointer hx (k + 2))
  rw [Program.effect, Program.eval_addAssign (Program.eval_number P 2 _) fetch_p hx hk hstore]
  rfl

/-- Comparing the symbol with that of a pair returns the pair's cell, or goes
on. -/
theorem exec_compare {b w : Nat} (hx : P.cells.lookup x = some values) (hb : values[k]? = some b)
    (hw : values[k + 1]? = some w) (fuel : Nat) :
    P.exec fuel compareStmt (frame r a (some (.pointer x k)) i) =
      .ok (if a.val = b then .returned (.int w)
        else .next (frame r a (some (.pointer x k)) i)) := by
  have hp := Program.eval_name (fetch_p (P := P) (r := r) (a := a) (v := .pointer x k) (i := i))
  have hequal := Program.eval_equal (Program.eval_name (fetch_c (P := P)))
    (Program.eval_index_cell hp (Program.eval_number P 0 _) hx hb)
  rw [compareStmt]
  by_cases ha : a.val = b
  · rw [Program.exec_branch_true hequal (by rw [if_pos (congrArg _ ha)]; rfl), if_pos ha]
    exact Program.exec_ret (Program.eval_index_cell hp (Program.eval_number P 1 _) hx hw)
  · rw [Program.exec_branch_false hequal (by rw [if_neg fun h => ha (Int.ofNat_inj.1 h)]; rfl),
      if_neg ha]

/-! ## §3. The search. -/

/-- The rounds of the search. -/
def searchRounds (P : Program) (bound : Nat) : Nat → Locals → Except Stop Program.Outcome :=
  Program.rounds (P.test (some (.atLeast (.decrement "i") (.number 0))))
    (P.effect (some (.addAssign "p" (.number 2)))) (fun l => P.exec bound compareStmt l)

/-- The variables when that many pairs lie behind the pointer. -/
def searchFrame (r : Nat) (a : Symbol) (x : String) (done : Nat) (count : Int) : Locals :=
  frame r a (some (.pointer x (1 + 2 * done))) (some (.int count))

/-- After the last pair the search ends. -/
theorem searchRounds_end (done bound fuel : Nat) :
    searchRounds P bound (fuel + 1) (searchFrame r a x done 0) =
      .ok (.next (searchFrame r a x done (-1))) :=
  Program.rounds_end (test_count P r a _ 0)

/-- **One round** returns the cell of the pair if that is the pair of the
symbol, and goes on to the next pair if it is not. -/
theorem searchRounds_pair {pairs done todo : List (Symbol × Nat)} {pair : Symbol × Nat}
    (hx : P.cells.lookup x = some (PackedRow.sparse pairs).values)
    (hpairs : pairs = done ++ pair :: todo) (bound fuel : Nat) :
    searchRounds P bound (fuel + 1) (searchFrame r a x done.length (pair :: todo).length) =
      if pair.1 = a then .ok (.returned (.int pair.2))
      else searchRounds P bound fuel (searchFrame r a x (done ++ [pair]).length todo.length) := by
  obtain ⟨hfirst, hsecond⟩ := PackedRow.getElem?_values_sparse done todo pair
  rw [← hpairs] at hfirst hsecond
  have htest := test_count P r a (some (.pointer x (1 + 2 * done.length))) (pair :: todo).length
  have hcount : ((pair :: todo).length : Int) - 1 = todo.length := by
    rw [List.length_cons]
    omega
  rw [hcount, decide_eq_true (by rw [List.length_cons]; omega)] at htest
  have hcompare := exec_compare (r := r) (a := a) (i := some (.int todo.length))
    hx hfirst hsecond bound
  by_cases ha : pair.1 = a
  · rw [if_pos (congrArg Fin.val ha.symm)] at hcompare
    rw [if_pos ha]
    exact Program.rounds_returned htest hcompare
  · have hroom : 1 + 2 * done.length + 2 ≤ (PackedRow.sparse pairs).values.length := by
      have := (List.getElem?_eq_some_iff.1 hsecond).1
      omega
    have hlength : 1 + 2 * done.length + 2 = 1 + 2 * (done ++ [pair]).length := by
      rw [List.length_append, List.length_singleton]
      omega
    have hstep := effect_next (r := r) (a := a) (i := some (.int todo.length)) hx hroom
    rw [if_neg fun h => ha (Fin.ext h.symm)] at hcompare
    rw [hlength] at hstep
    rw [if_neg ha]
    exact Program.rounds_next htest hcompare hstep

/-- **The search through the pairs.** -/
theorem searchRounds_eq {pairs : List (Symbol × Nat)}
    (hx : P.cells.lookup x = some (PackedRow.sparse pairs).values)
    (done : List (Symbol × Nat)) {todo : List (Symbol × Nat)} (hpairs : pairs = done ++ todo)
    (bound : Nat) {fuel : Nat} (hfuel : todo.length < fuel) :
    searchRounds P bound fuel (searchFrame r a x done.length todo.length) =
      .ok (match todo.find? fun pair => pair.1 == a with
        | some pair => .returned (.int pair.2)
        | none => .next (searchFrame r a x pairs.length (-1))) := by
  obtain ⟨fuel, rfl⟩ := Nat.exists_eq_add_one.2 (Nat.zero_lt_of_lt hfuel)
  induction todo generalizing done fuel with
  | nil =>
      rw [List.append_nil] at hpairs
      rw [hpairs]
      exact searchRounds_end _ _ _
  | cons pair todo ih =>
      rw [searchRounds_pair hx hpairs, List.find?_cons]
      have hrest := Nat.lt_of_succ_lt_succ hfuel
      by_cases ha : pair.1 = a
      · rw [if_pos ha, beq_iff_eq.2 ha]
      · obtain ⟨fuel, rfl⟩ := Nat.exists_eq_add_one.2 (Nat.zero_lt_of_lt hrest)
        rw [if_neg ha, beq_eq_false_iff_ne.2 ha]
        exact ih _ (by rw [hpairs, List.append_assoc, List.singleton_append]) _ hrest

/-! ## §4. Rows. -/

/-- What the search gives. -/
theorem exec_search {pairs : List (Symbol × Nat)}
    (hx : P.cells.lookup x = some (PackedRow.sparse pairs).values) {fuel : Nat}
    (hfuel : pairs.length < fuel) :
    P.exec fuel searchStmt (searchFrame r a x 0 pairs.length) =
      .ok (match pairs.find? fun pair => pair.1 == a with
        | some pair => .returned (.int pair.2)
        | none => .next (searchFrame r a x pairs.length (-1))) := by
  rw [searchStmt, Program.exec]
  exact searchRounds_eq hx [] rfl fuel hfuel

/-- The first number of a row is read, and the pointer moves on. -/
theorem eval_first {first : Nat} {rest : List Nat} (hx : P.cells.lookup x = some (first :: rest)) :
    P.eval (.equal (.assign "i" (.deref (.increment "p"))) (.number 0))
        (frame r a (some (.pointer x 0)) i) =
      .ok (.int (if (first : Int) = 0 then 1 else 0),
        frame r a (some (.pointer x 1)) (some (.int first))) := by
  have hstore := store_p (r := r) (a := a) (p := some (.pointer x 0)) (i := i)
    (Program.fits_pointer hx 1)
  have hincrement := Program.eval_increment fetch_p hx (by rw [List.length_cons]; omega) hstore
  exact Program.eval_equal
    (Program.eval_assign (Program.eval_deref hincrement hx rfl) store_i) (Program.eval_number P 0 _)

/-- In a dense row, the symbol is a position. -/
theorem exec_dense {cells : List Nat} (hcells : cells.length = alphabetSize)
    (hx : P.cells.lookup x = some (PackedRow.dense cells).values) (fuel : Nat) :
    P.exec fuel rowStmt (frame r a (some (.pointer x 0)) i) =
      .ok (.returned (.int ((PackedRow.dense cells).cellAt a))) := by
  have ha : a.val < cells.length := by rw [hcells]; exact a.isLt
  have hcell : (PackedRow.dense cells).values[1 + a.val]? =
      some ((PackedRow.dense cells).cellAt a) := by
    rw [PackedRow.values, Nat.add_comm, List.getElem?_cons_succ, PackedRow.cellAt,
      List.getElem?_eq_getElem ha]
    rfl
  have hzero := eval_first (r := r) (a := a) (i := i) hx
  have hindex := Program.eval_index_cell (Program.eval_name fetch_p)
    (Program.eval_name (fetch_c (r := r) (a := a) (i := some (.int (0 : Nat))))) hx hcell
  rw [rowStmt]
  refine Program.exec_seq_returned ?_
  rw [Program.exec_branch_true hzero rfl]
  exact Program.exec_ret hindex

/-- In a sparse row, the symbol is searched for. -/
theorem exec_sparse {pairs : List (Symbol × Nat)} (hpairs : pairs ≠ [])
    (hx : P.cells.lookup x = some (PackedRow.sparse pairs).values) {fuel : Nat}
    (hfuel : pairs.length < fuel) :
    (P.exec fuel rowStmt (frame r a (some (.pointer x 0)) i) =
      .ok (.returned (.int ((PackedRow.sparse pairs).cellAt a)))) ∨
    ((PackedRow.sparse pairs).cellAt a = 0 ∧
      ∃ l, P.exec fuel rowStmt (frame r a (some (.pointer x 0)) i) = .ok (.next l)) := by
  have hcount : ¬ (pairs.length : Int) = 0 := by
    intro h
    exact hpairs (List.length_eq_zero_iff.1 (Int.ofNat_inj.1 h))
  have hfirst := eval_first (r := r) (a := a) (i := i) hx
  rw [if_neg hcount] at hfirst
  have hsearch := exec_search (r := r) (a := a) hx hfuel
  rw [rowStmt, Program.exec_seq_next (Program.exec_branch_false hfirst rfl), PackedRow.cellAt]
  cases hfind : pairs.find? fun pair => pair.1 == a with
  | some pair =>
      rw [hfind] at hsearch
      exact .inl (Program.exec_seq_returned hsearch)
  | none =>
      rw [hfind] at hsearch
      exact .inr ⟨rfl, _, Program.exec_seq_next hsearch⟩

/-! ## §5. Calls. -/

/-- The array that the pointer of a row leads to. -/
def rowTarget (name : String) (number : Nat) : PackedRow → Option String
  | .empty => none
  | .sparse _ | .dense _ => some (name ++ toString number)

variable {name : String} {rows : List PackedRow} {number : Nat} {row : PackedRow}

/-- **The body of the decoder, with the pointer of a row.** -/
theorem exec_body (hwell : row.WellFormed)
    (hcells : ∀ target, rowTarget name number row = some target →
      P.cells.lookup target = some row.values) {fuel : Nat} (hfuel : alphabetSize < fuel) :
    P.exec fuel (decoder name).body
        (frame r a (some (Value.ofTarget (rowTarget name number row))) i) =
      .ok (.returned (.int (row.cellAt a))) := by
  have hzero : ∀ l, P.exec fuel (.seq (.ret (.number 0)) .skip) l = .ok (.returned (.int 0)) :=
    fun l => Program.exec_seq_returned (Program.exec_ret (Program.eval_number P 0 l))
  have hbranch : ∀ x, P.exec fuel (.branch (.name "p") rowStmt)
      (frame r a (some (.pointer x 0)) i) =
        P.exec fuel rowStmt (frame r a (some (.pointer x 0)) i) :=
    fun x => Program.exec_branch_true (Program.eval_name fetch_p) rfl
  cases row with
  | empty =>
      have hnull : P.exec fuel (.branch (.name "p") rowStmt) (frame r a (some .null) i) =
          .ok (.next (frame r a (some .null) i)) :=
        Program.exec_branch_false (Program.eval_name fetch_p) rfl
      exact (Program.exec_seq_next hnull).trans (hzero _)
  | dense cells =>
      exact Program.exec_seq_returned ((hbranch _).trans (exec_dense hwell (hcells _ rfl) fuel))
  | sparse pairs =>
      have hlength := Nat.lt_of_le_of_lt hwell.2 hfuel
      rcases exec_sparse (r := r) (a := a) (i := i) hwell.1 (hcells _ rfl) hlength with
        h | ⟨hcell, l, h⟩
      · exact Program.exec_seq_returned ((hbranch _).trans h)
      · rw [hcell]
        exact (Program.exec_seq_next ((hbranch _).trans h)).trans (hzero l)

/-- The pointers of all rows. -/
def targetsOf (name : String) (rows : List PackedRow) : List (Option String) :=
  rows.zipIdx.map fun (row, number) => rowTarget name number row

/-- **A program holds stored rows** under a name: the arrays and the decoder. -/
structure Holds (P : Program) (name : String) (rows : List PackedRow) : Prop where
  /-- No array of cells has the name itself. -/
  not_cells : P.cells.lookup name = none
  /-- The pointers of the rows. -/
  pointers : P.tables.lookup name = some (targetsOf name rows)
  /-- The arrays of the rows that have a pointer. -/
  cells : ∀ {number row target}, rows[number]? = some row →
    rowTarget name number row = some target → P.cells.lookup target = some row.values
  /-- The function. -/
  decoder : P.functions.find? (·.name == "yy_next") = some (decoder name)

/-- The pointer of a row. -/
theorem Holds.eval_pointer (h : Holds P name rows) (hrow : rows[number]? = some row) {l : Locals}
    (hl : l.lookup name = none) (hnumber : P.fetch l "cur_state" = .ok (.int number)) :
    P.eval (.index (.name name) (.name "cur_state")) l =
      .ok (Value.ofTarget (rowTarget name number row), l) := by
  have hcontents : P.contents? name = some ((targetsOf name rows).map Value.ofTarget) := by
    rw [Program.contents?, h.not_cells, h.pointers]
    rfl
  have hfetch : P.fetch l name = .ok (.pointer name 0) := by
    rw [Program.fetch, hl, hcontents]
    rfl
  refine Program.eval_index (Program.eval_name hfetch) (Program.eval_name hnumber) hcontents ?_
  simp [targetsOf, List.getElem?_zipIdx, hrow]

theorem Holds.fits_target (h : Holds P name rows) (hrow : rows[number]? = some row) :
    P.fits .pointer (Value.ofTarget (rowTarget name number row)) = true := by
  cases htarget : rowTarget name number row with
  | none => rfl
  | some target => exact Program.fits_pointer (h.cells hrow htarget) 0

/-- The variables of the decoder before its first statement. -/
theorem Holds.enter (h : Holds P name rows) (hrow : rows[number]? = some row)
    (hown : name ∉ (PackedTable.decoder name).ownNames) (a : Symbol) :
    P.enter (PackedTable.decoder name).locals
        [("cur_state", ⟨.integer, some (.int number)⟩), ("c", ⟨.unsigned, some (.int a.val)⟩)] =
      .ok (frame number a (some (Value.ofTarget (rowTarget name number row))) none) := by
  have hnames : ¬ name = "cur_state" ∧ ¬ name = "c" ∧ ¬ name = "p" := by
    simp [Function.ownNames, PackedTable.decoder] at hown
    exact ⟨hown.1, hown.2.1, hown.2.2.1⟩
  have heval := h.eval_pointer hrow
    (l := [("cur_state", ⟨.integer, some (.int number)⟩), ("c", ⟨.unsigned, some (.int a.val)⟩),
      ("p", ⟨.pointer, none⟩)])
    (by simp [hnames]) (by simp [Program.fetch])
  have hfits := h.fits_target hrow
  simp [PackedTable.decoder, Program.enter, heval, Program.store, List.lookup_cons, hfits, frame,
    -Program.eval]

/-- **The decoder returns the cell of the symbol in the row.** -/
theorem Holds.call (h : Holds P name rows) (hrow : rows[number]? = some row)
    (hwell : row.WellFormed) (hown : name ∉ (PackedTable.decoder name).ownNames) {fuel : Nat}
    (hfuel : alphabetSize < fuel) (a : Symbol) :
    P.call fuel "yy_next" [number, a.val] = .ok (row.cellAt a) := by
  have hbind : P.bind (PackedTable.decoder name).parameters [(number : Int), a.val] =
      .ok [("cur_state", ⟨.integer, some (.int number)⟩),
        ("c", ⟨.unsigned, some (.int a.val)⟩)] := by
    simp [PackedTable.decoder, Program.bind, Program.fits]
  have hbody := exec_body (r := number) (a := a) (i := none) hwell
    (fun target htarget => h.cells hrow htarget) hfuel
  rw [Program.call, h.decoder]
  show (P.bind _ _ >>= _) = _
  rw [hbind, Program.ok_bind, h.enter hrow hown a, Program.ok_bind, hbody]
  rfl

end PackedTable
end LineScan
