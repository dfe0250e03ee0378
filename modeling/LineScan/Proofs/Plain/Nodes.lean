/-
  LineScan.Proofs.Plain.Nodes
  ───────────────────────────
  **RUNNING NODES BY THEIR NUMBERS.**

  The nodes of an automaton with plain references: every node is looked up
  before it is asked anything, and every node that is reached is put into a
  set by its number.  On the nodes of a finished automaton no look-up and no
  insertion fails, and what comes out is what the automaton computes.
-/
import LineScan.Nfa.Listing
import LineScan.Proofs.Plain.Access

namespace LineScan

/-! ## §1. Nodes with plain references. -/

/-- A node with its references as plain numbers. -/
def Node.plain {n : Nat} (node : Node (Fin n)) : Node Nat where
  next := node.next.map Fin.val
  other := node.other.map Fin.val
  edge := node.edge
  anchor := node.anchor
  index := node.index

namespace Node

variable {n : Nat} (node : Node (Fin n))

theorem isTerminal_plain : node.plain.isTerminal = node.isTerminal := Option.isNone_map

theorem epsilonTargets_plain : node.plain.epsilonTargets = node.epsilonTargets.map Fin.val := by
  have hedge : node.plain.edge = node.edge := rfl
  unfold epsilonTargets
  rw [hedge]
  cases node.edge with
  | epsilon =>
      show (node.next.map Fin.val).toList ++ (node.other.map Fin.val).toList = _
      rw [Option.toList_map, Option.toList_map, ← List.map_append]
  | byte b => rfl
  | cls c => rfl

theorem byteTarget?_plain (b : UInt8) :
    node.plain.byteTarget? b = (node.byteTarget? b).map Fin.val := by
  have hedge : node.plain.edge = node.edge := rfl
  unfold byteTarget?
  rw [hedge]
  split <;> rfl

end Node

/-- The nodes of an automaton with plain references. -/
def Nfa.plainNodes (nfa : Nfa) : Vector (Node Nat) nfa.size := nfa.nodes.map Node.plain

theorem Nfa.lookUp?_plainNodes (nfa : Nfa) (i : Fin nfa.size) :
    lookUp? nfa.plainNodes.toList i = .ok (nfa.node i).plain := by
  unfold plainNodes
  rw [Vector.toList_map]
  exact lookUp?_map_toList nfa.nodes Node.plain i

/-! ## §2. Moves on sets of nodes. -/

theorem reduceOption_map_eq_filterMap {α β : Type} (f : α → Option β) (l : List α) :
    (l.map f).reduceOption = l.filterMap f := List.filterMap_map

namespace PlainNodes

variable {n : Nat} (nodes : Vector (Node Nat) n)

/-- Adds to `found` everything reachable from `pending` over epsilon edges
without passing through `found`. -/
def closeFrom? (found : BitSet n) (pending : List Nat) : Except Fault (BitSet n) :=
  match pending with
  | [] => .ok found
  | i :: rest =>
      if _h : found.contains i = true then closeFrom? found rest
      else
        match lookUp? nodes.toList i, _hi : found.insert? i with
        | .ok node, .ok found' => closeFrom? found' (node.epsilonTargets ++ rest)
        | .error f, _ => .error f
        | _, .error f => .error f
termination_by (found.absent.length, pending.length)
decreasing_by
  · exact Prod.Lex.right _ (Nat.lt_succ_self _)
  · unfold BitSet.insert? at _hi
    split at _hi
    · cases _hi
      exact Prod.Lex.left _ _ (BitSet.length_absent_insert_lt (Bool.eq_false_iff.2 _h))
    · cases _hi

/-- Everything that a set reaches without consuming a byte. -/
def close? (s : BitSet n) : Except Fault (BitSet n) :=
  closeFrom? nodes (BitSet.empty n) (s.members.map Fin.val)

/-- The answers of the members of a set, each of which is looked up. -/
def askAll? {α : Type} (s : BitSet n) (question : Node Nat → α) : Except Fault (List α) :=
  (s.members.map Fin.val).mapM fun i => do return question (← lookUp? nodes.toList i)

/-- What a set reaches by consuming one byte. -/
def step? (s : BitSet n) (b : UInt8) : Except Fault (Option (BitSet n)) := do
  let targets ← askAll? nodes s fun node => node.byteTarget? b
  match targets.reduceOption with
  | [] => return none
  | targets => return some (← BitSet.ofList? n targets)

/-- Whether some node of a set accepts. -/
def isAccepting? (s : BitSet n) : Except Fault Bool := do
  let terminal ← askAll? nodes s Node.isTerminal
  return terminal.any id

end PlainNodes

namespace Nfa

open PlainNodes

variable (nfa : Nfa)

theorem closeFrom?_plainNodes (found : nfa.NodeSet) (pending : List (Fin nfa.size)) :
    closeFrom? nfa.plainNodes found (pending.map Fin.val) =
      .ok (nfa.closeFrom found pending) := by
  fun_induction nfa.closeFrom found pending with
  | case1 found => rw [List.map_nil, closeFrom?]
  | case2 found i rest h ih =>
      rw [List.map_cons, closeFrom?, dif_pos h]
      exact ih
  | case3 found i rest h ih =>
      rw [List.map_cons, closeFrom?, dif_neg h, lookUp?_plainNodes, BitSet.insert?_val]
      rw [List.map_append, ← Node.epsilonTargets_plain] at ih
      exact ih

theorem close?_plainNodes (s : nfa.NodeSet) : close? nfa.plainNodes s = .ok (nfa.close s) :=
  nfa.closeFrom?_plainNodes _ s.members

theorem askAll?_plainNodes {α : Type} (s : nfa.NodeSet) (question : Node Nat → α) :
    askAll? nfa.plainNodes s question =
      .ok (s.members.map fun i => question (nfa.node i).plain) := by
  apply mapM_map_eq_ok
  intro i _
  rw [lookUp?_plainNodes, ok_bind]
  rfl

theorem step?_plainNodes (s : nfa.NodeSet) (b : UInt8) :
    step? nfa.plainNodes s b = .ok (nfa.step s b) := by
  have htargets : (s.members.map fun i => (nfa.node i).plain.byteTarget? b).reduceOption =
      (s.members.filterMap fun i => (nfa.node i).byteTarget? b).map Fin.val := by
    simp only [Node.byteTarget?_plain]
    rw [reduceOption_map_eq_filterMap, List.map_filterMap]
  unfold step? step
  rw [askAll?_plainNodes, ok_bind, htargets]
  cases s.members.filterMap fun i => (nfa.node i).byteTarget? b with
  | nil => rfl
  | cons target targets =>
      show (BitSet.ofList? nfa.size ((target :: targets).map Fin.val) >>= fun t =>
        pure (some t)) = _
      rw [BitSet.ofList?_map_val]
      rfl

theorem isAccepting?_plainNodes (s : nfa.NodeSet) :
    isAccepting? nfa.plainNodes s = .ok (nfa.isAccepting s) := by
  unfold isAccepting? isAccepting
  rw [askAll?_plainNodes, ok_bind, List.any_map]
  simp only [Function.comp_def, Node.isTerminal_plain]
  rfl

end Nfa

/-! ## §3. The listing. -/

/-- The line of a node with plain references. -/
def Node.plainLine (start : Nat) (node : Node Nat) : String :=
  "NFA state " ++ padLeft 2 '0' node.index ++ ": " ++ outgoingText ++
    (if node.anchor.isEmpty then "" else " " ++ node.anchor.text) ++
    (if node.index = start then " (START STATE)" else "")
where
  /-- Where the node goes. -/
  outgoingText : String :=
    match node.next with
    | none => "(TERMINAL)"
    | some next =>
        "--> " ++ padLeft 2 '0' next ++ " (" ++
          (node.other.map (padLeft 2 '0')).getD "-1" ++ ") on " ++ node.edge.text

theorem Node.plainLine_plain {n : Nat} (start : Fin n) (node : Node (Fin n)) :
    node.plain.plainLine start = node.line start := by
  have hother : ((node.other.map Fin.val).map (padLeft 2 '0')).getD "-1" =
      Node.outgoingText.otherText node.other := by
    cases node.other <;> rfl
  have htext : Node.plainLine.outgoingText node.plain = node.outgoingText := by
    unfold Node.plainLine.outgoingText Node.outgoingText Node.plain
    cases node.next with
    | none => rfl
    | some next => simp only [Option.map_some, hother]
  have hstart : (if node.plain.index = start then " (START STATE)" else "") =
      if node.index = start then " (START STATE)" else "" :=
    if_congr Fin.val_inj rfl rfl
  unfold Node.plainLine Node.line
  rw [htext, hstart]
  rfl

theorem Nfa.unlines_plainLine (nfa : Nfa) :
    unlines (nfa.plainNodes.toList.map (Node.plainLine nfa.start)) = nfa.listing := by
  unfold Nfa.listing Nfa.plainNodes
  rw [Vector.toList_map, List.map_map]
  simp only [Function.comp_def, Node.plainLine_plain]

end LineScan
