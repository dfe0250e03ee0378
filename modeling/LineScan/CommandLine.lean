/-
  LineScan.CommandLine
  ────────────────────
  **THE COMMAND LINE.**

  Arguments are read from left to right.  Options are

      -e, --emit PARTS      what to print, separated by commas; may be repeated
      -f, --format FORMAT   the language of the full table
      -n, --name NAME       the name of the tables
      -t, --threshold N     rows with more transitions are not compressed
      --no-minimize         do not merge states
      --numeric             write symbols as numbers

  and everything else is a pattern.  A value stands in the next argument, or
  directly behind a short option, or behind an equals sign; the next argument
  is only taken for a value if it does not begin with a dash, a lone dash
  excepted.  After `--` everything is a pattern.

  A run is a value too: its exit code and its two outputs.  Patterns are
  treated one by one; a text that is no pattern is reported and makes the
  exit code 1, and the others are printed all the same.
-/
import LineScan.Compile
import LineScan.Nfa.Listing
import LineScan.Render.Graph

namespace LineScan.CommandLine

/-! ## §1. Options. -/

/-- What can be printed for a pattern. -/
inductive Part where
  /-- The nodes of the non-deterministic automaton. -/
  | nfa
  /-- The graph of the deterministic one. -/
  | graph
  /-- The full table. -/
  | table
  /-- The compressed table. -/
  | pairs
deriving DecidableEq, Repr

/-- The part of this name. -/
def Part.ofName? : String → Option Part
  | "nfa" => some .nfa
  | "graph" => some .graph
  | "table" => some .table
  | "pairs" => some .pairs
  | _ => none

/-- The table format of this name. -/
def formatOfName? : String → Option TableFormat
  | "c" => some .c
  | "rust" => some .rust
  | _ => none

/-- A count: digits, perhaps after a plus sign, for a number below 2^64. -/
def countOf? (s : String) : Option Nat :=
  let digits := match s.toList with
    | '+' :: rest => rest
    | cs => cs
  if digits ≠ [] ∧ digits.all Char.isDigit then
    let n := Nat.ofDigitChars 10 digits 0
    if n < UInt64.size then some n else none
  else none

/-- The pieces of a text between the commas. -/
def commaPieces (s : String) : List String := (go s.toList).map String.ofList
where
  /-- The pieces between the commas of a list of characters. -/
  go : List Char → List (List Char)
    | [] => [[]]
    | c :: rest =>
        if c = ',' then [] :: go rest
        else
          match go rest with
          | [] => [[c]]
          | piece :: pieces => (c :: piece) :: pieces

/-- What a run is asked to do. -/
structure Options where
  /-- What to print for each pattern, in order. -/
  parts : List Part
  /-- The language of the full table. -/
  format : TableFormat
  /-- The name of the tables. -/
  name : String
  /-- Rows with more transitions are not compressed. -/
  threshold : Nat
  /-- Whether states are merged. -/
  minimize : Bool
  /-- Whether symbols are written as numbers. -/
  numeric : Bool
deriving DecidableEq, Repr

/-- Options and patterns as far as they have been read. -/
structure Draft where
  /-- What to print, if that has been said. -/
  parts : Option (List Part)
  /-- The language of the full table, if that has been said. -/
  format : Option TableFormat
  /-- The name of the tables, if that has been said. -/
  name : Option String
  /-- The threshold, if that has been said. -/
  threshold : Option Nat
  /-- Whether states are to stay unmerged. -/
  noMinimize : Bool
  /-- Whether symbols are to be written as numbers. -/
  numeric : Bool
  /-- The patterns, in order. -/
  patterns : List String

/-- Nothing has been read. -/
def Draft.empty : Draft := ⟨none, none, none, none, false, false, []⟩

/-- The patterns of a run that was not given any. -/
def defaultPatterns : List String :=
  ["^[ \\t]*//[ \\t]*TRACE[ \\t]*#[0-9]+[ \\t]*$", "^[ \\t]*#[0-9]+.*$"]

namespace Draft

/-- The options of a draft, with what holds where nothing was said. -/
def options (d : Draft) : Options where
  parts := d.parts.getD [.graph, .table]
  format := d.format.getD FullTableOptions.standard.format
  name := d.name.getD defaultTableName
  threshold := d.threshold.getD PackedTableOptions.standard.threshold
  minimize := !d.noMinimize
  numeric := d.numeric

/-- The patterns of a draft, or the default ones. -/
def patternsOrDefault (d : Draft) : List String :=
  if d.patterns.isEmpty then defaultPatterns else d.patterns

/-- Adds a pattern. -/
def addPattern (d : Draft) (pattern : String) : Draft :=
  { d with patterns := d.patterns ++ [pattern] }

end Draft

/-! ## §2. Reading arguments. -/

/-- The options that take a value. -/
inductive Valued where
  /-- `-e`, `--emit`. -/
  | emit
  /-- `-f`, `--format`. -/
  | format
  /-- `-n`, `--name`. -/
  | name
  /-- `-t`, `--threshold`. -/
  | threshold
deriving DecidableEq, Repr

/-- What the name of an option asks for. -/
inductive OptionName where
  /-- A value is needed. -/
  | valued (o : Valued)
  /-- `--no-minimize`. -/
  | noMinimize
  /-- `--numeric`. -/
  | numeric
  /-- Help or version. -/
  | help
deriving DecidableEq, Repr

/-- The option with this long name. -/
def OptionName.ofLong? : String → Option OptionName
  | "emit" => some (.valued .emit)
  | "format" => some (.valued .format)
  | "name" => some (.valued .name)
  | "threshold" => some (.valued .threshold)
  | "no-minimize" => some .noMinimize
  | "numeric" => some .numeric
  | "help" | "version" => some .help
  | _ => none

/-- The option with this letter. -/
def OptionName.ofShort? : Char → Option OptionName
  | 'e' => some (.valued .emit)
  | 'f' => some (.valued .format)
  | 'n' => some (.valued .name)
  | 't' => some (.valued .threshold)
  | 'h' | 'V' => some .help
  | _ => none

/-- An argument taken apart. -/
inductive Argument where
  /-- Everything after it is a pattern. -/
  | separator
  /-- A long option, perhaps with a value behind an equals sign. -/
  | long (name : String) (value : Option String)
  /-- A short option, perhaps with a value directly behind it. -/
  | short (letter : Char) (value : Option String)
  /-- A pattern or a value. -/
  | plain (text : String)
deriving DecidableEq, Repr

/-- Takes an argument apart. -/
def Argument.ofString (s : String) : Argument :=
  match s.toList with
  | ['-', '-'] => .separator
  | '-' :: '-' :: cs =>
      match cs.dropWhile (· ≠ '=') with
      | [] => .long (String.ofList cs) none
      | _ :: value =>
          .long (String.ofList (cs.takeWhile (· ≠ '='))) (some (String.ofList value))
  | ['-', letter] => .short letter none
  | '-' :: letter :: '=' :: value => .short letter (some (String.ofList value))
  | '-' :: letter :: value => .short letter (some (String.ofList value))
  | _ => .plain s

/-- What the arguments come down to. -/
inductive Request where
  /-- Print something for each pattern. -/
  | run (options : Options) (patterns : List String)
  /-- Explain the command line. -/
  | explain
  /-- The arguments make no sense. -/
  | refused
deriving DecidableEq, Repr

namespace Draft

/-- Sets what has not been set before. -/
def once {α : Type} (before : Option α) (value : Option α) : Option (Option α) :=
  match before, value with
  | none, some v => some (some v)
  | _, _ => none

/-- Gives an option its value; nothing if the value or a repetition is not
allowed. -/
def give (d : Draft) (o : Valued) (value : String) : Option Draft :=
  match o with
  | .emit => do
      let parts ← (commaPieces value).mapM Part.ofName?
      return { d with parts := some (d.parts.getD [] ++ parts) }
  | .format => (once d.format (formatOfName? value)).map fun format => { d with format }
  | .name => (once d.name (some value)).map fun name => { d with name }
  | .threshold => (once d.threshold (countOf? value)).map fun threshold => { d with threshold }

/-- Sets a flag; nothing if it is set already. -/
def setFlag (d : Draft) : OptionName → Option Draft
  | .noMinimize => if d.noMinimize then none else some { d with noMinimize := true }
  | .numeric => if d.numeric then none else some { d with numeric := true }
  | _ => none

/-- The request that a draft amounts to once all arguments have been read. -/
def request (d : Draft) : Request := .run d.options d.patternsOrDefault

end Draft

/-- What one argument does. -/
inductive Step where
  /-- Reading goes on; `pending` is an option that waits for its value. -/
  | next (d : Draft) (pending : Option Valued)
  /-- The arguments that are left are patterns. -/
  | patternsOnly (d : Draft)
  /-- Reading stops. -/
  | stop (r : Request)

/-- Goes on with a draft, if there is one. -/
def Step.ofDraft? : Option Draft → Step
  | some d => .next d none
  | none => .stop .refused

namespace Draft

/-- Takes an option that may have come with a value.  Help wins over what
stands behind its letter, but not over a value behind an equals sign. -/
def takeOption (d : Draft) (long : Bool) (option : Option OptionName) (value : Option String) :
    Step :=
  match option, value with
  | none, _ => .stop .refused
  | some (.valued o), none => .next d (some o)
  | some (.valued o), some value => Step.ofDraft? (d.give o value)
  | some .help, value => .stop (if long ∧ value.isSome then .refused else .explain)
  | some _, some _ => .stop .refused
  | some flag, none => Step.ofDraft? (d.setFlag flag)

/-- Takes one argument. -/
def take (d : Draft) (pending : Option Valued) (arg : Argument) : Step :=
  match pending, arg with
  -- a waiting option takes nothing that looks like an option
  | some o, .plain value => Step.ofDraft? (d.give o value)
  | some _, _ => .stop .refused
  | none, .plain pattern => .next (d.addPattern pattern) none
  | none, .separator => .patternsOnly d
  | none, .long name value => d.takeOption true (OptionName.ofLong? name) value
  | none, .short letter value => d.takeOption false (OptionName.ofShort? letter) value

/-- **Reads the arguments that are left.** -/
def read (d : Draft) (pending : Option Valued) : List String → Request
  | [] => if pending.isSome then .refused else d.request
  | arg :: rest =>
      match d.take pending (Argument.ofString arg) with
      | .next d pending => d.read pending rest
      | .patternsOnly d => (rest.foldl addPattern d).request
      | .stop r => r

end Draft

/-- **The request of a list of arguments.** -/
def requestOf (args : List String) : Request := Draft.empty.read none args

/-! ## §3. Runs. -/

/-- What a run leaves behind. -/
structure Outcome where
  /-- The exit code. -/
  code : Nat
  /-- The text on standard output. -/
  out : String
  /-- The text on standard error. -/
  err : String
deriving DecidableEq, Repr

namespace Outcome

/-- A run that does nothing. -/
def nothing : Outcome := ⟨0, "", ""⟩

/-- One run after the other; the larger exit code counts. -/
def andThen (a b : Outcome) : Outcome := ⟨max a.code b.code, a.out ++ b.out, a.err ++ b.err⟩

end Outcome

/-- One part of what is printed for a pattern. -/
def Part.render (o : Options) (nfa : Nfa) (d : Dfa) : Part → String
  | .nfa => nfa.listing
  | .graph => d.graph o.name
  | .table => d.fullTable ⟨o.name, o.format⟩
  | .pairs => d.packedTable ⟨o.name, o.threshold, o.numeric⟩

/-- What is printed for a pattern: a heading, then the parts, each with an
empty line after it. -/
def report (emphasis : Emphasis) (o : Options) (pattern : String) (nfa : Nfa) : String :=
  let d := if o.minimize then nfa.determinize.minimize else nfa.determinize
  emphasis.green "pattern:" ++ " " ++ pattern ++ "\n" ++
    String.join (o.parts.map fun part => part.render o nfa d ++ "\n")

/-- **The run on one pattern.** -/
def runPattern (emphasis : Emphasis) (o : Options) (pattern : String) : Outcome :=
  match Nfa.ofPattern? pattern with
  | .ok nfa => ⟨0, report emphasis o pattern nfa, ""⟩
  | .error (.pattern e) => ⟨1, "", e.render emphasis pattern ++ "\n"⟩
  | .error (.fault f) => ⟨1, "", f.message ++ "\n"⟩

/-- **The run on several patterns**, in order. -/
def runPatterns (emphasis : Emphasis) (o : Options) (patterns : List String) : Outcome :=
  patterns.foldl (fun done pattern => done.andThen (runPattern emphasis o pattern))
    Outcome.nothing

/-- How the command is used. -/
def usage : String :=
  "Usage: linescan [OPTIONS] [PATTERN]...\n\n" ++
  "  -e, --emit <PARTS>       nfa, graph, table, pairs [default: graph,table]\n" ++
  "  -f, --format <FORMAT>    c, rust [default: c]\n" ++
  "  -n, --name <NAME>        name of the tables [default: Yy_nxt]\n" ++
  "  -t, --threshold <COUNT>  rows with more transitions are not compressed [default: 4]\n" ++
  "      --no-minimize        do not merge states\n" ++
  "      --numeric            write symbols as numbers\n"

/-- **The run of a list of arguments.** -/
def run (emphasis : Emphasis) (args : List String) : Outcome :=
  match requestOf args with
  | .run options patterns => runPatterns emphasis options patterns
  | .explain => ⟨0, usage, ""⟩
  | .refused => ⟨2, "", usage⟩

/-! ## §4. Colors. -/

/-- What an environment variable says about a switch: anything but a zero
switches it on. -/
def switchOf (value : Option String) : Option Bool := value.map (· ≠ "0")

/-- Whether emphasized words are colored: `CLICOLOR_FORCE` forces colors,
`NO_COLOR` forbids them, and otherwise a terminal gets them unless `CLICOLOR`
is switched off. -/
def emphasisOf (noColor force wanted : Option String) (terminal : Bool) : Emphasis :=
  if switchOf force = some true then .colored
  else if noColor.isSome then .plain
  else if (switchOf wanted).getD true ∧ terminal then .colored
  else .plain

end LineScan.CommandLine
