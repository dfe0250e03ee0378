/-
  LineScan.Event
  ──────────────
  **WHAT THE STAGES REPORT.**

  Compiling a pattern and writing its tables leave a log.  Its records are
  values here: an `Event` says what happened, `severity` and `stage` say how
  important it is and which stage reports it, and `message` puts it into
  words.
-/
import LineScan.Anchor
import LineScan.Text.Quoted

namespace LineScan

/-- How important a record is. -/
inductive Severity where
  /-- Results of a stage. -/
  | debug
  /-- Single steps of a stage. -/
  | trace
deriving DecidableEq, Repr

/-- The stages that report. -/
inductive Stage where
  /-- Reading a pattern. -/
  | reading
  /-- Building nodes. -/
  | nodes
  /-- Finding states. -/
  | states
  /-- Merging states. -/
  | merging
  /-- Writing tables. -/
  | tables
  /-- The compilation as a whole. -/
  | compilation
deriving DecidableEq, Repr

/-- Something worth a record. -/
inductive Event where
  /-- A rule has been read and built between two slots. -/
  | ruleBuilt (first last : Nat) (anchor : Anchor)
  /-- An automaton has been finished. -/
  | nodesFinished (nodes slots reused : Nat)
  /-- A state has been found; `label` is the text of its set of nodes. -/
  | stateFound (name label : String) (accepting : Bool)
  /-- All states have been found. -/
  | statesFinished (states : Nat)
  /-- A block has been split; the members are given by name. -/
  | blockSplit (block : Nat) (kept : List String) (fresh : Nat) (moved : List String)
  /-- A sweep over the blocks has ended. -/
  | sweepFinished (number splits blocks : Nat)
  /-- States have been merged. -/
  | statesMerged (before after : Nat)
  /-- A pattern has been compiled. -/
  | compiled (pattern : String) (nodes states merged : Nat)
  /-- A compressed table has been written. -/
  | tablePacked (rows cells threshold : Nat)
deriving DecidableEq, Repr

namespace Event

/-- How important an event is. -/
def severity : Event → Severity
  | .ruleBuilt .. | .stateFound .. | .blockSplit .. => .trace
  | .nodesFinished .. | .statesFinished .. | .sweepFinished .. | .statesMerged .. | .compiled ..
  | .tablePacked .. => .debug

/-- The stage that reports an event. -/
def stage : Event → Stage
  | .ruleBuilt .. => .reading
  | .nodesFinished .. => .nodes
  | .stateFound .. | .statesFinished .. => .states
  | .blockSplit .. | .sweepFinished .. | .statesMerged .. => .merging
  | .compiled .. => .compilation
  | .tablePacked .. => .tables

/-- An event in words. -/
def message : Event → String
  | .ruleBuilt first last anchor =>
      s!"rule {first}..{last} anchored " ++ anchor.text
  | .nodesFinished nodes slots reused =>
      s!"built NFA with {nodes} states ({slots} slots, {reused} reused after splicing)"
  | .stateFound name label accepting =>
      "DFA state " ++ name ++ " = " ++ label ++ (if accepting then " (accepting)" else "")
  | .statesFinished states => s!"subset construction produced {states} DFA states"
  | .blockSplit block kept fresh moved =>
      s!"partition {block} = " ++ " ".intercalate kept ++ s!" split off {fresh} = " ++
        " ".intercalate moved
  | .sweepFinished number splits blocks =>
      s!"refinement pass {number}: {splits} splits, {blocks} partitions"
  | .statesMerged before after => s!"minimized {before} DFA states to {after}"
  | .compiled pattern nodes states merged =>
      quoted pattern ++
        s!": {nodes} NFA states, {states} DFA states, {merged} after minimization"
  | .tablePacked rows cells threshold =>
      s!"compressed {rows} rows into {cells} cells (threshold {threshold})"

end Event

end LineScan
