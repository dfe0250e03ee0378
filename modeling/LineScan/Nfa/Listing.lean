/-
  LineScan.Nfa.Listing
  ────────────────────
  **THE NODES OF AN AUTOMATON AS TEXT.**

  One line for each node: its number, where it goes and on what, the anchor
  of the rule it accepts, and a mark at the start.
-/
import LineScan.Nfa.Basic
import LineScan.Text.Layout

namespace LineScan

/-- The part of a node's line that says where it goes. -/
def Node.outgoingText {n : Nat} (node : Node (Fin n)) : String :=
  match node.next, node.other with
  | none, _ => "(TERMINAL)"
  | some next, other =>
      "--> " ++ padLeft 2 '0' next ++ " (" ++ otherText other ++ ") on " ++ node.edge.text
where
  /-- The second reference, or minus one. -/
  otherText : Option (Fin n) → String
    | none => "-1"
    | some other => padLeft 2 '0' other

/-- The line of a node; `start` is the automaton's start. -/
def Node.line {n : Nat} (start : Fin n) (node : Node (Fin n)) : String :=
  "NFA state " ++ padLeft 2 '0' node.index ++ ": " ++ node.outgoingText ++
    (if node.anchor.isEmpty then "" else " " ++ node.anchor.text) ++
    (if node.index = start then " (START STATE)" else "")

/-- **The node listing of an automaton.** -/
def Nfa.listing (nfa : Nfa) : String := unlines (nfa.nodes.toList.map (Node.line nfa.start))

end LineScan
