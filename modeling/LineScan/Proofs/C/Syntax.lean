/-
  LineScan.Proofs.C.Syntax
  ────────────────────────
  **C LEXEMES AS DECLARATIONS.**

  A text declares three kinds of things:

      arrays of cells       `YYPRIVATE YY_TTYPE x[] = \x7b 1, 2, \x7d;`
      arrays of pointers    `YYPRIVATE YY_TTYPE *x[2] = \x7b NULL, y, \x7d;`
      functions             `YYPRIVATE YY_TTYPE f(int a) \x7b … \x7d`

  Expressions are read by recursive descent, one level of binding strength
  after the other.  Every function that reads takes the number of steps that it
  may recurse; `fuelFor` is more than any text of that length needs, and a text
  that runs out is refused.
-/
import LineScan.Proofs.C.Lexeme

namespace LineScan.C

/-! ## §1. Trees. -/

/-- An expression.  Nothing but a variable is ever assigned to. -/
inductive Expr where
  | number (value : Nat)
  | name (text : String)
  /-- `array[position]` -/
  | index (array position : Expr)
  /-- `*pointer` -/
  | deref (pointer : Expr)
  /-- `x = value` -/
  | assign (x : String) (value : Expr)
  /-- `x += value` -/
  | addAssign (x : String) (value : Expr)
  /-- `--x` -/
  | decrement (x : String)
  /-- `x++` -/
  | increment (x : String)
  /-- `left == right` -/
  | equal (left right : Expr)
  /-- `left >= right` -/
  | atLeast (left right : Expr)
deriving DecidableEq

/-- A statement. -/
inductive Stmt where
  | skip
  | seq (first second : Stmt)
  | eval (expr : Expr)
  | ret (expr : Expr)
  | branch (condition : Expr) (body : Stmt)
  | loop (start condition step : Option Expr) (body : Stmt)
deriving DecidableEq

/-- What a variable holds. -/
inductive Kind where
  /-- Any integer. -/
  | integer
  /-- An integer that is not negative. -/
  | unsigned
  /-- A place in an array of cells, or nowhere. -/
  | pointer
deriving DecidableEq, Repr

/-- A variable of a function. -/
structure Variable where
  name : String
  kind : Kind
  start : Option Expr
deriving DecidableEq

/-- A function.  Its variables are declared before its first statement. -/
structure Function where
  name : String
  parameters : List (String × Kind)
  locals : List Variable
  body : Stmt
deriving DecidableEq

/-- A declaration. -/
inductive Declaration where
  /-- An array of cells. -/
  | cells (name : String) (values : List Nat)
  /-- An array of pointers, each to the first cell of an array or nowhere. -/
  | pointers (name : String) (size : Nat) (targets : List (Option String))
  | function (function : Function)
deriving DecidableEq

/-! ## §2. Expressions. -/

/-- The lexemes after a mark that has to come first. -/
def expect? (m : Mark) : List Lexeme → Option (List Lexeme)
  | .mark k :: rest => if k = m then some rest else none
  | _ => none

/-- How strongly an expression binds. -/
inductive Level where
  | expression
  | equality
  | relation
  | unary
  | primary
  /-- What may follow an expression that has been read already. -/
  | suffix (expr : Expr)

/-- Reads an expression. -/
def expr? : Nat → Level → List Lexeme → Option (Expr × List Lexeme)
  | 0, _, _ => none
  | n + 1, .expression, ts => do
      let (left, rest) ← expr? n .equality ts
      match left, rest with
      | .name x, .mark .assign :: rest => do
          let (right, rest) ← expr? n .expression rest
          return (.assign x right, rest)
      | .name x, .mark .addAssign :: rest => do
          let (right, rest) ← expr? n .expression rest
          return (.addAssign x right, rest)
      | _, _ => return (left, rest)
  | n + 1, .equality, ts => do
      let (left, rest) ← expr? n .relation ts
      match rest with
      | .mark .equal :: rest => do
          let (right, rest) ← expr? n .relation rest
          return (.equal left right, rest)
      | _ => return (left, rest)
  | n + 1, .relation, ts => do
      let (left, rest) ← expr? n .unary ts
      match rest with
      | .mark .atLeast :: rest => do
          let (right, rest) ← expr? n .unary rest
          return (.atLeast left right, rest)
      | _ => return (left, rest)
  | n + 1, .unary, .mark .star :: rest => do
      let (e, rest) ← expr? n .unary rest
      return (.deref e, rest)
  | n + 1, .unary, .mark .decrement :: rest => do
      match ← expr? n .unary rest with
      | (.name x, rest) => return (.decrement x, rest)
      | _ => none
  | n + 1, .unary, ts => do
      let (e, rest) ← expr? n .primary ts
      expr? n (.suffix e) rest
  | _ + 1, .primary, .number k :: rest => some (.number k, rest)
  | _ + 1, .primary, .name x :: rest => some (.name x, rest)
  | n + 1, .primary, .mark .openParen :: rest => do
      let (e, rest) ← expr? n .expression rest
      let rest ← expect? .closeParen rest
      return (e, rest)
  | _ + 1, .primary, _ => none
  | n + 1, .suffix e, .mark .openBracket :: rest => do
      let (k, rest) ← expr? n .expression rest
      let rest ← expect? .closeBracket rest
      expr? n (.suffix (.index e k)) rest
  | n + 1, .suffix (.name x), .mark .increment :: rest => expr? n (.suffix (.increment x)) rest
  | _ + 1, .suffix e, ts => some (e, ts)

/-- Reads an expression that may be missing, and the mark after it. -/
def optional? (n : Nat) (stop : Mark) (ts : List Lexeme) : Option (Option Expr × List Lexeme) :=
  match expect? stop ts with
  | some rest => some (none, rest)
  | none => do
      let (e, rest) ← expr? n .expression ts
      let rest ← expect? stop rest
      return (some e, rest)

/-! ## §3. Statements. -/

mutual

/-- Reads a statement. -/
def stmt? : Nat → List Lexeme → Option (Stmt × List Lexeme)
  | 0, _ => none
  | n + 1, .mark .openBrace :: rest => stmts? n rest
  | _ + 1, .mark .semicolon :: rest => some (.skip, rest)
  | n + 1, .keyword .returnWord :: rest => do
      let (e, rest) ← expr? n .expression rest
      let rest ← expect? .semicolon rest
      return (.ret e, rest)
  | n + 1, .keyword .ifWord :: .mark .openParen :: rest => do
      let (e, rest) ← expr? n .expression rest
      let rest ← expect? .closeParen rest
      let (s, rest) ← stmt? n rest
      return (.branch e s, rest)
  | n + 1, .keyword .forWord :: .mark .openParen :: rest => do
      let (start, rest) ← optional? n .semicolon rest
      let (condition, rest) ← optional? n .semicolon rest
      let (step, rest) ← optional? n .closeParen rest
      let (s, rest) ← stmt? n rest
      return (.loop start condition step s, rest)
  | n + 1, ts => do
      let (e, rest) ← expr? n .expression ts
      let rest ← expect? .semicolon rest
      return (.eval e, rest)

/-- Reads the statements before a closing brace. -/
def stmts? : Nat → List Lexeme → Option (Stmt × List Lexeme)
  | 0, _ => none
  | _ + 1, .mark .closeBrace :: rest => some (.skip, rest)
  | n + 1, ts => do
      let (s, rest) ← stmt? n ts
      let (ss, rest) ← stmts? n rest
      return (.seq s ss, rest)

end

/-! ## §4. Declarations. -/

/-- Reads a type. -/
def kind? : List Lexeme → Option (Kind × List Lexeme)
  | .keyword .unsigned :: .keyword .int :: rest => some (.unsigned, rest)
  | .keyword .int :: rest => some (.integer, rest)
  | .keyword .cell :: .mark .star :: rest => some (.pointer, rest)
  | .keyword .cell :: rest => some (.integer, rest)
  | _ => none

/-- Reads the parameters before a closing parenthesis. -/
def parameters? : Nat → List Lexeme → Option (List (String × Kind) × List Lexeme)
  | 0, _ => none
  | n + 1, ts => do
      match ← kind? ts with
      | (kind, .name x :: .mark .closeParen :: rest) => return ([(x, kind)], rest)
      | (kind, .name x :: .mark .comma :: rest) => do
          let (parameters, rest) ← parameters? n rest
          return ((x, kind) :: parameters, rest)
      | _ => none

/-- Reads the variables before the first statement. -/
def locals? : Nat → List Lexeme → Option (List Variable × List Lexeme)
  | 0, _ => none
  | n + 1, ts =>
      match kind? ts with
      | none => some ([], ts)
      | some (kind, .name x :: .mark .semicolon :: rest) => do
          let (locals, rest) ← locals? n rest
          return (⟨x, kind, none⟩ :: locals, rest)
      | some (kind, .name x :: .mark .assign :: rest) => do
          let (e, rest) ← expr? n .expression rest
          let rest ← expect? .semicolon rest
          let (locals, rest) ← locals? n rest
          return (⟨x, kind, some e⟩ :: locals, rest)
      | some _ => none

/-- Reads the entries of an array, each by itself, up to the closing brace.
There may be a comma after the last one. -/
def items? {α : Type} (item? : Lexeme → Option α) : List Lexeme → Option (List α × List Lexeme)
  | .mark .closeBrace :: rest => some ([], rest)
  | t :: .mark .closeBrace :: rest => do
      let x ← item? t
      return ([x], rest)
  | t :: .mark .comma :: rest => do
      let x ← item? t
      let (xs, rest) ← items? item? rest
      return (x :: xs, rest)
  | _ => none

/-- A cell. -/
def cell? : Lexeme → Option Nat
  | .number v => some v
  | _ => none

/-- A pointer to the first cell of an array, or nowhere. -/
def target? : Lexeme → Option (Option String)
  | .name x => some (some x)
  | .keyword .null => some none
  | _ => none

/-- More steps than reading so many lexemes takes: at most eight, for the
levels of an expression, to a lexeme. -/
def fuelFor (ts : List Lexeme) : Nat := 8 * ts.length + 8

/-- Reads a declaration.  No array is empty. -/
def declaration? : List Lexeme → Option (Declaration × List Lexeme)
  | .keyword .storage :: .keyword .cell :: .name x :: .mark .openBracket ::
      .mark .closeBracket :: .mark .assign :: .mark .openBrace :: rest => do
      let (values, rest) ← items? cell? rest
      let rest ← expect? .semicolon rest
      if values = [] then none else return (.cells x values, rest)
  | .keyword .storage :: .keyword .cell :: .mark .star :: .name x :: .mark .openBracket ::
      .number size :: .mark .closeBracket :: .mark .assign :: .mark .openBrace :: rest => do
      let (targets, rest) ← items? target? rest
      let rest ← expect? .semicolon rest
      if targets = [] then none else return (.pointers x size targets, rest)
  | .keyword .storage :: .keyword .cell :: .name f :: .mark .openParen :: rest => do
      let (parameters, rest') ← parameters? (fuelFor rest) rest
      let rest' ← expect? .openBrace rest'
      let (locals, rest') ← locals? (fuelFor rest) rest'
      let (body, rest') ← stmts? (fuelFor rest) rest'
      return (.function ⟨f, parameters, locals, body⟩, rest')
  | _ => none

/-- Reads declarations up to the end. -/
def declarations? : Nat → List Lexeme → Option (List Declaration)
  | _, [] => some []
  | 0, _ => none
  | n + 1, ts => do
      let (d, rest) ← declaration? ts
      let ds ← declarations? n rest
      return d :: ds

end LineScan.C
