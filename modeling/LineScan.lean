import LineScan.Main
import LineScan.Proofs.Dfa.Quotient
import LineScan.Proofs.Nfa.OfPattern
import LineScan.Proofs.Dfa.Minimality
import LineScan.Proofs.Compile.Minimal
import LineScan.Proofs.Render.FullTable
import LineScan.Proofs.C.Lexeme
import LineScan.Proofs.C.Syntax
import LineScan.Proofs.C.Semantics
import LineScan.Proofs.Render.Decoder
import LineScan.Proofs.Render.PackedLexemes
import LineScan.Proofs.Render.PackedProgram
import LineScan.Proofs.Render.PackedTable
import LineScan.Proofs.Compile.Canonical
import LineScan.Proofs.Dfa.WellFormed
import LineScan.Proofs.Compile.Live
import LineScan.Proofs.Plain.Access
import LineScan.Proofs.Plain.Nodes
import LineScan.Proofs.Plain.Subset
import LineScan.Proofs.Plain.Partition
import LineScan.Proofs.Plain.Quotient
import LineScan.Proofs.Plain.Render
import LineScan.Proofs.Plain.Lexer
import LineScan.Proofs.Plain.Builder
import LineScan.Proofs.Plain.Tracking
import LineScan.Proofs.Plain.Assembling
import LineScan.Proofs.Plain.Compile
import LineScan.Proofs.Nfa.History
import LineScan.Proofs.Pattern.Places
import LineScan.Proofs.CommandLine.Runs
import LineScan.Proofs.Nfa.Acceptance
import LineScan.Proofs.Pattern.Calls
import LineScan.Proofs.Pattern.Literals
import LineScan.Proofs.Pattern.ClassEntries
import LineScan.Proofs.Nfa.ClassEdges
import LineScan.Proofs.Nfa.ClassMeaning
import LineScan.Proofs.Dfa.TruePartition
import LineScan.Proofs.Dfa.Idempotence
import LineScan.Proofs.Nfa.PatternShape
import LineScan.Proofs.Dfa.Termination
import LineScan.Proofs.Dfa.Discovery
import LineScan.Proofs.Nfa.LinearSize
import LineScan.Proofs.StateName
import LineScan.Proofs.Render.Graph
import LineScan.Proofs.Render.CellWidth
import LineScan.Proofs.Nfa.Discipline
import LineScan.Proofs.BitSet
import LineScan.Proofs.Nfa.Closure
import LineScan.Proofs.Render.PackedSize
