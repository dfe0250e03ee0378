/-
  LineScan.Proofs.C.Semantics
  ───────────────────────────
  **WHAT DECLARATIONS MEAN.**

  Arrays hold values and never change; a function has variables, which do.  A
  pointer is an array and a position in it.  It may move up to the place after
  the last entry and no further, and only an entry can be loaded: whatever
  else a text does with a pointer is `Stop.undefined`.  A run that returns an
  integer has therefore never read outside an array.

  Operands are evaluated from left to right, and integers are unbounded: the
  types are taken to be wide enough for every number that comes up.
-/
import LineScan.Proofs.C.Syntax

namespace LineScan.C

/-! ## §1. Values and programs. -/

/-- A value. -/
inductive Value where
  | int (n : Int)
  | null
  | pointer (array : String) (position : Nat)
deriving DecidableEq, Repr

/-- Why a run does not come to an end. -/
inductive Stop where
  /-- The language gives the step no meaning. -/
  | undefined
  /-- A loop has more rounds than there is fuel. -/
  | outOfFuel
deriving DecidableEq, Repr

/-- What a text has declared. -/
structure Program where
  /-- The arrays of cells. -/
  cells : List (String × List Nat)
  /-- The arrays of pointers. -/
  tables : List (String × List (Option String))
  functions : List Function

/-- A pointer to the first cell of an array, or nowhere. -/
def Value.ofTarget : Option String → Value
  | none => .null
  | some x => .pointer x 0

namespace Program

variable (P : Program)

/-- Nothing. -/
def empty : Program := ⟨[], [], []⟩

/-- What an array holds. -/
def contents? (x : String) : Option (List Value) :=
  match P.cells.lookup x with
  | some values => some (values.map fun (v : Nat) => .int v)
  | none => (P.tables.lookup x).map (·.map Value.ofTarget)

/-- Whether a name is taken. -/
def declares (x : String) : Bool :=
  (P.contents? x).isSome || P.functions.any (·.name == x)

end Program

/-! ## §2. Declarations. -/

/-- The names in an expression. -/
def Expr.names : Expr → List String
  | .number _ => []
  | .name x => [x]
  | .index a k => a.names ++ k.names
  | .deref e => e.names
  | .assign x e => x :: e.names
  | .addAssign x e => x :: e.names
  | .decrement x => [x]
  | .increment x => [x]
  | .equal a b => a.names ++ b.names
  | .atLeast a b => a.names ++ b.names

/-- The names in an expression, if there is one. -/
def namesOf (e : Option Expr) : List String := e.elim [] Expr.names

/-- The names in a statement. -/
def Stmt.names : Stmt → List String
  | .skip => []
  | .seq s t => s.names ++ t.names
  | .eval e => e.names
  | .ret e => e.names
  | .branch e s => e.names ++ s.names
  | .loop start condition step s => namesOf start ++ namesOf condition ++ namesOf step ++ s.names

namespace Function

/-- The names of the parameters and variables. -/
def ownNames (f : Function) : List String := f.parameters.map (·.1) ++ f.locals.map (·.name)

/-- The names that a function uses. -/
def usedNames (f : Function) : List String :=
  f.locals.flatMap (fun x => namesOf x.start) ++ f.body.names

end Function

namespace Program

/-- **Adds a declaration.**  It takes a new name, an array of pointers has room
for its entries and points to arrays of cells, and a function names its
variables differently and uses nothing that is not declared. -/
def declare? (P : Program) : Declaration → Option Program
  | .cells x values =>
      if P.declares x then none else some { P with cells := P.cells ++ [(x, values)] }
  | .pointers x size targets =>
      if P.declares x then none
      else if targets.length ≤ size ∧ ∀ y ∈ targets.filterMap id, (P.cells.lookup y).isSome then
        some { P with
          tables := P.tables ++ [(x, targets ++ List.replicate (size - targets.length) none)] }
      else none
  | .function f =>
      if P.declares f.name then none
      else if f.ownNames.Nodup ∧
          ∀ x ∈ f.usedNames, x ∈ f.ownNames ∨ (P.contents? x).isSome then
        some { P with functions := P.functions ++ [f] }
      else none

end Program

/-- **The program of a text.** -/
def read? (text : String) : Option Program := do
  let ts ← lexemes? text
  let ds ← declarations? ts.length ts
  ds.foldlM Program.declare? Program.empty

/-! ## §3. Variables. -/

/-- A variable while its function runs; it has no value until it gets one. -/
structure Slot where
  kind : Kind
  value : Option Value
deriving DecidableEq

/-- The variables of a function while it runs. -/
abbrev Locals := List (String × Slot)

namespace Program

variable (P : Program)

/-- Whether a variable can hold a value. -/
def fits : Kind → Value → Bool
  | .integer, .int _ => true
  | .unsigned, .int n => 0 ≤ n
  | .pointer, .null => true
  | .pointer, .pointer x _ => (P.cells.lookup x).isSome
  | _, _ => false

/-- The value of a name: that of a variable, or the first entry of an array. -/
def fetch (l : Locals) (x : String) : Except Stop Value :=
  match l.lookup x with
  | some ⟨_, some v⟩ => .ok v
  | some ⟨_, none⟩ => .error .undefined
  | none => if (P.contents? x).isSome then .ok (.pointer x 0) else .error .undefined

/-- Gives a variable a value. -/
def store (l : Locals) (x : String) (v : Value) : Except Stop Locals :=
  match l.lookup x with
  | some slot =>
      if P.fits slot.kind v then
        .ok (l.map fun (y, s) => if y = x then (y, { s with value := some v }) else (y, s))
      else .error .undefined
  | none => .error .undefined

/-- What a pointer points to. -/
def load : Value → Except Stop Value
  | .pointer x k =>
      match (P.contents? x).bind (·[k]?) with
      | some v => .ok v
      | none => .error .undefined
  | _ => .error .undefined

/-- A sum.  A pointer moves by a number of entries, and not past the place
after the last one. -/
def add : Value → Value → Except Stop Value
  | .int m, .int n => .ok (.int (m + n))
  | .pointer x k, .int n =>
      match P.contents? x with
      | some values =>
          if 0 ≤ k + n ∧ k + n ≤ values.length then .ok (.pointer x (k + n).toNat)
          else .error .undefined
      | none => .error .undefined
  | _, _ => .error .undefined

/-! ## §4. Expressions and statements. -/

/-- The value of an expression, and the variables after it. -/
@[simp] def eval : Expr → Locals → Except Stop (Value × Locals)
  | .number k, l => .ok (.int k, l)
  | .name x, l => do
      let v ← P.fetch l x
      return (v, l)
  | .index a k, l => do
      let (v, l) ← eval a l
      let (w, l) ← eval k l
      let place ← P.add v w
      let entry ← P.load place
      return (entry, l)
  | .deref e, l => do
      let (v, l) ← eval e l
      let entry ← P.load v
      return (entry, l)
  | .assign x e, l => do
      let (v, l) ← eval e l
      let l ← P.store l x v
      return (v, l)
  | .addAssign x e, l => do
      let (w, l) ← eval e l
      let v ← P.fetch l x
      let sum ← P.add v w
      let l ← P.store l x sum
      return (sum, l)
  | .decrement x, l => do
      let v ← P.fetch l x
      let less ← P.add v (.int (-1))
      let l ← P.store l x less
      return (less, l)
  | .increment x, l => do
      let v ← P.fetch l x
      let more ← P.add v (.int 1)
      let l ← P.store l x more
      return (v, l)
  | .equal a b, l => do
      let (v, l) ← eval a l
      let (w, l) ← eval b l
      match v, w with
      | .int m, .int n => return (.int (if m = n then 1 else 0), l)
      | _, _ => throw .undefined
  | .atLeast a b, l => do
      let (v, l) ← eval a l
      let (w, l) ← eval b l
      match v, w with
      | .int m, .int n => return (.int (if m ≥ n then 1 else 0), l)
      | _, _ => throw .undefined

/-- Whether a value counts as true. -/
def truth : Value → Bool
  | .int n => n ≠ 0
  | .null => false
  | .pointer _ _ => true

/-- Whether an expression is true; a missing one is. -/
def test (e : Option Expr) (l : Locals) : Except Stop (Bool × Locals) :=
  match e with
  | none => .ok (true, l)
  | some e => do
      let (v, l) ← P.eval e l
      return (truth v, l)

/-- What an expression does to the variables, if there is one. -/
def effect (e : Option Expr) (l : Locals) : Except Stop Locals :=
  match e with
  | none => .ok l
  | some e => do
      let (_, l) ← P.eval e l
      return l

/-- How a statement ends. -/
inductive Outcome where
  /-- The next statement runs. -/
  | next (l : Locals)
  /-- The function returns. -/
  | returned (v : Value)

/-- The rounds of a loop, at most `fuel` of them. -/
@[simp] def rounds (test : Locals → Except Stop (Bool × Locals))
    (step : Locals → Except Stop Locals) (body : Locals → Except Stop Outcome) :
    Nat → Locals → Except Stop Outcome
  | 0, _ => .error .outOfFuel
  | fuel + 1, l => do
      let (go, l) ← test l
      if go then
        match ← body l with
        | .returned v => return .returned v
        | .next l => do
            let l ← step l
            rounds test step body fuel l
      else return .next l

/-- **Runs a statement**, with a bound on the rounds of each loop. -/
@[simp] def exec (fuel : Nat) : Stmt → Locals → Except Stop Outcome
  | .skip, l => .ok (.next l)
  | .seq s t, l => do
      match ← exec fuel s l with
      | .returned v => return .returned v
      | .next l => exec fuel t l
  | .eval e, l => do
      let (_, l) ← P.eval e l
      return .next l
  | .ret e, l => do
      let (v, _) ← P.eval e l
      return .returned v
  | .branch e s, l => do
      let (go, l) ← P.test (some e) l
      if go then exec fuel s l else return .next l
  | .loop start condition step s, l => do
      let l ← P.effect start l
      rounds (P.test condition) (P.effect step) (fun l => exec fuel s l) fuel l

/-! ## §5. Calls. -/

/-- The parameters with the arguments for values. -/
def bind : List (String × Kind) → List Int → Except Stop Locals
  | [], [] => .ok []
  | (x, kind) :: parameters, n :: arguments => do
      let l ← bind parameters arguments
      if P.fits kind (.int n) then return (x, ⟨kind, some (.int n)⟩) :: l else throw .undefined
  | _, _ => .error .undefined

/-- Declares variables, one after the other. -/
def enter : List Variable → Locals → Except Stop Locals
  | [], l => .ok l
  | x :: rest, l => do
      let l := l ++ [(x.name, ⟨x.kind, none⟩)]
      let l ← match x.start with
        | none => pure l
        | some e => do
            let (v, l) ← P.eval e l
            P.store l x.name v
      enter rest l

/-- **Calls a function** that returns an integer. -/
def call (fuel : Nat) (name : String) (arguments : List Int) : Except Stop Int :=
  match P.functions.find? (·.name == name) with
  | none => .error .undefined
  | some f => do
      let l ← P.bind f.parameters arguments
      let l ← P.enter f.locals l
      match ← P.exec fuel f.body l with
      | .returned (.int n) => return n
      | _ => throw .undefined

/-! ## §6. Arrays of cells. -/

@[simp] theorem ok_bind {ε α β : Type} (a : α) (f : α → Except ε β) :
    (Except.ok a >>= f) = f a := rfl

variable {P} {l l₁ l₂ : Locals} {x y : String} {values : List Nat} {entries : List Value}
variable {v : Value} {k : Nat}

theorem contents?_of_cells (hx : P.cells.lookup x = some values) :
    P.contents? x = some (values.map fun (v : Nat) => .int v) := by
  rw [contents?, hx]

theorem fits_pointer (hx : P.cells.lookup x = some values) (k : Nat) :
    P.fits .pointer (.pointer x k) = true := by
  rw [fits, hx]
  rfl

/-- An entry can be loaded. -/
theorem load_entry (hx : P.contents? x = some entries) (hv : entries[k]? = some v) :
    P.load (.pointer x k) = .ok v := by
  rw [load, hx, Option.bind_some, hv]

/-- A pointer can move to the place after the last entry. -/
theorem add_entry {n : Nat} (hx : P.contents? x = some entries) (hn : k + n ≤ entries.length) :
    P.add (.pointer x k) (.int n) = .ok (.pointer x (k + n)) := by
  have hrange : 0 ≤ (k : Int) + n ∧ (k : Int) + n ≤ entries.length := by omega
  rw [add, hx]
  show (if _ then _ else _) = _
  rw [if_pos hrange]
  rfl

theorem load_cell {v : Nat} (hx : P.cells.lookup x = some values) (hv : values[k]? = some v) :
    P.load (.pointer x k) = .ok (.int v) :=
  load_entry (contents?_of_cells hx) (by rw [List.getElem?_map, hv]; rfl)

theorem add_cell {n : Nat} (hx : P.cells.lookup x = some values) (hn : k + n ≤ values.length) :
    P.add (.pointer x k) (.int n) = .ok (.pointer x (k + n)) :=
  add_entry (contents?_of_cells hx) (by rw [List.length_map]; exact hn)

/-! ## §7. Single steps. -/

variable {a b e : Expr} {s t : Stmt} {m n : Int} {fuel : Nat}

theorem eval_number (P : Program) (k : Nat) (l : Locals) :
    P.eval (.number k) l = .ok (.int k, l) := rfl

theorem eval_name (h : P.fetch l x = .ok v) : P.eval (.name x) l = .ok (v, l) := by
  rw [eval, h]
  rfl

theorem eval_index {n : Nat} (ha : P.eval a l = .ok (.pointer x k, l₁))
    (he : P.eval e l₁ = .ok (.int n, l₂)) (hx : P.contents? x = some entries)
    (hv : entries[k + n]? = some v) : P.eval (.index a e) l = .ok (v, l₂) := by
  have hle : k + n ≤ entries.length := Nat.le_of_lt (List.getElem?_eq_some_iff.1 hv).1
  simp only [eval, ha, he, ok_bind, add_entry hx hle, load_entry hx hv]
  rfl

theorem eval_index_cell {n v : Nat} (ha : P.eval a l = .ok (.pointer x k, l₁))
    (he : P.eval e l₁ = .ok (.int n, l₂)) (hx : P.cells.lookup x = some values)
    (hv : values[k + n]? = some v) : P.eval (.index a e) l = .ok (.int v, l₂) :=
  eval_index ha he (contents?_of_cells hx) (by rw [List.getElem?_map, hv]; rfl)

theorem eval_deref {v : Nat} (he : P.eval e l = .ok (.pointer x k, l₁))
    (hx : P.cells.lookup x = some values) (hv : values[k]? = some v) :
    P.eval (.deref e) l = .ok (.int v, l₁) := by
  simp only [eval, he, ok_bind, load_cell hx hv]
  rfl

theorem eval_assign (he : P.eval e l = .ok (v, l₁)) (hs : P.store l₁ y v = .ok l₂) :
    P.eval (.assign y e) l = .ok (v, l₂) := by
  simp only [eval, he, ok_bind, hs]
  rfl

/-- A pointer is moved on. -/
theorem eval_addAssign {n : Nat} (he : P.eval e l = .ok (.int n, l₁))
    (hy : P.fetch l₁ y = .ok (.pointer x k)) (hx : P.cells.lookup x = some values)
    (hn : k + n ≤ values.length) (hs : P.store l₁ y (.pointer x (k + n)) = .ok l₂) :
    P.eval (.addAssign y e) l = .ok (.pointer x (k + n), l₂) := by
  simp only [eval, he, ok_bind, hy, add_cell hx hn, hs]
  rfl

/-- A pointer is moved on by one, and what it was is the value. -/
theorem eval_increment (hy : P.fetch l y = .ok (.pointer x k))
    (hx : P.cells.lookup x = some values) (hk : k + 1 ≤ values.length)
    (hs : P.store l y (.pointer x (k + 1)) = .ok l₁) :
    P.eval (.increment y) l = .ok (.pointer x k, l₁) := by
  rw [eval, hy, ok_bind]
  show (P.add _ (.int (1 : Nat)) >>= _) = _
  rw [add_cell hx hk, ok_bind, hs]
  rfl

/-- An integer is made one less. -/
theorem eval_decrement (hy : P.fetch l y = .ok (.int n))
    (hs : P.store l y (.int (n - 1)) = .ok l₁) :
    P.eval (.decrement y) l = .ok (.int (n - 1), l₁) := by
  rw [eval, hy, ok_bind]
  show (P.store l y (.int (n - 1)) >>= _) = _
  rw [hs]
  rfl

theorem eval_equal (ha : P.eval a l = .ok (.int m, l₁)) (hb : P.eval b l₁ = .ok (.int n, l₂)) :
    P.eval (.equal a b) l = .ok (.int (if m = n then 1 else 0), l₂) := by
  simp only [eval, ha, ok_bind, hb]
  rfl

theorem eval_atLeast (ha : P.eval a l = .ok (.int m, l₁)) (hb : P.eval b l₁ = .ok (.int n, l₂)) :
    P.eval (.atLeast a b) l = .ok (.int (if m ≥ n then 1 else 0), l₂) := by
  simp only [eval, ha, ok_bind, hb]
  rfl

theorem exec_seq_next (hs : P.exec fuel s l = .ok (.next l₁)) :
    P.exec fuel (.seq s t) l = P.exec fuel t l₁ := by
  rw [exec, hs]
  rfl

theorem exec_seq_returned (hs : P.exec fuel s l = .ok (.returned v)) :
    P.exec fuel (.seq s t) l = .ok (.returned v) := by
  rw [exec, hs]
  rfl

theorem exec_ret (he : P.eval e l = .ok (v, l₁)) :
    P.exec fuel (.ret e) l = .ok (.returned v) := by
  rw [exec, he]
  rfl

theorem test_some (he : P.eval e l = .ok (v, l₁)) : P.test (some e) l = .ok (truth v, l₁) := by
  rw [test, he]
  rfl

theorem exec_branch_true (he : P.eval e l = .ok (v, l₁)) (hv : truth v = true) :
    P.exec fuel (.branch e s) l = P.exec fuel s l₁ := by
  rw [exec, test_some he, ok_bind]
  exact if_pos hv

theorem exec_branch_false (he : P.eval e l = .ok (v, l₁)) (hv : truth v = false) :
    P.exec fuel (.branch e s) l = .ok (.next l₁) := by
  rw [exec, test_some he, ok_bind]
  exact if_neg (by rw [hv]; decide)

/-! ## §8. Rounds of a loop. -/

section

variable {l₃ : Locals} {check : Locals → Except Stop (Bool × Locals)}
  {step : Locals → Except Stop Locals} {body : Locals → Except Stop Outcome}

theorem rounds_end (hc : check l = .ok (false, l₁)) :
    rounds check step body (fuel + 1) l = .ok (.next l₁) := by
  rw [rounds, hc]
  rfl

theorem rounds_returned (hc : check l = .ok (true, l₁)) (hb : body l₁ = .ok (.returned v)) :
    rounds check step body (fuel + 1) l = .ok (.returned v) := by
  rw [rounds, hc]
  show (body l₁ >>= _) = _
  rw [hb]
  rfl

theorem rounds_next (hc : check l = .ok (true, l₁)) (hb : body l₁ = .ok (.next l₂))
    (hs : step l₂ = .ok l₃) :
    rounds check step body (fuel + 1) l = rounds check step body fuel l₃ := by
  rw [rounds, hc]
  show (body l₁ >>= _) = _
  rw [hb]
  show (step l₂ >>= _) = _
  rw [hs]
  rfl

end

end Program

end LineScan.C
