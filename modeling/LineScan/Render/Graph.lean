/-
  LineScan.Render.Graph
  ─────────────────────
  **AUTOMATA AS DIRECTED GRAPHS.**

  A graph description with one line for each group of transitions, labelled
  by its symbols in caret notation; quotes and backslashes get a backslash.
-/
import LineScan.Dfa.Basic
import LineScan.Text.Caret
import LineScan.Text.Layout

namespace LineScan

/-- A symbol in the label of an edge. -/
def Symbol.labelText (a : Symbol) : String :=
  match a.toChar with
  | '\'' => "\\'"
  | '"' => "\\\""
  | '\\' => "\\\\"
  | _ => caretForm a.toByte

/-- The label of a group of transitions. -/
def Transition.labelText {size : Nat} (t : Transition size) : String :=
  String.join (t.symbols.members.map Symbol.labelText)

namespace Dfa

variable (d : Dfa)

/-- The line of a group of transitions that leaves state `s`. -/
def edgeLine (s : State d.capacity d.size) (t : Transition d.size) : String :=
  s.name ++ " -> " ++ (d.state t.target).name ++ " [ label = \"'" ++ t.labelText ++ "'\" ]"

/-- The lines of all edges, in the order of the states they leave. -/
def edgeLines : List String :=
  d.states.toList.flatMap fun s => s.transitions.map (d.edgeLine s)

/-- **The graph of an automaton**, under a name. -/
def graph (name : String) : String :=
  unlines (["digraph " ++ name ++ " \x7b"] ++ d.edgeLines ++ ["\x7d"])

end Dfa

end LineScan
