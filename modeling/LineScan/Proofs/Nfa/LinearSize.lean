/-
  LineScan.Proofs.Nfa.LinearSize
  ──────────────────────────────
  **THE AUTOMATON OF A PATTERN IS LINEAR IN THE PATTERN.**

  The slots that a pattern of `n` bytes asks for are counted along the chain
  from its text to its nodes:

      bytes  → tokens       every token takes a byte             (Calls)
      tokens → rules        a token pays for two slots           (Weight)
      rules  → operations   what is recorded is what is done     (Recording)
      arena  → automaton    finishing keeps every node           (Compaction)

  At most `2 * n + 1` slots are asked for.  Splices are the only operations
  that release slots, one each, so the automaton has as many nodes as there
  were allocations without splices.
-/
import LineScan.Proofs.Nfa.Compaction
import LineScan.Proofs.Nfa.OfPattern
import LineScan.Proofs.Pattern.Calls
import LineScan.Proofs.Pattern.Weight

namespace LineScan

open Arena (Operation OnlySplices)

/-- **A pattern** asks for at most two slots for each byte, and one besides. -/
theorem allocationsOf_le_of_readRules {pattern : String} {rules : List Rule}
    (h : readRules pattern = .ok rules) :
    allocationsOf rules ≤ 2 * (utf8 pattern).length + 1 := by
  rw [Reader.readRules_eq_complete] at h
  have hweight := Reader.allocationsOf_le_of_complete h
  have hstart : Reader.start.weight = 0 := rfl
  have hitems : (itemsOf pattern).length ≤ (utf8 pattern).length :=
    Cursor.length_items_le (Cursor.start pattern)
  omega

namespace Nfa

/-- **Linear in the text**: an automaton, the operations that built it, and
the number of bytes of the text that it was built from. -/
structure LinearIn (nfa : Nfa) (bytes : Nat) (operations : List Operation) : Prop where
  /-- There are at most two allocations for each byte, and one besides. -/
  allocations_le : operations.count .alloc ≤ 2 * bytes + 1
  /-- No slot is released other than by a splice. -/
  releases : OnlySplices operations
  /-- There are not more splices than allocations. -/
  splices_le : operations.countP Operation.isSplice ≤ operations.count .alloc
  /-- The nodes are the allocations without the splices. -/
  size : nfa.size = operations.count .alloc - operations.countP Operation.isSplice
  /-- There are at most two nodes for each byte, and one besides. -/
  size_le : nfa.size ≤ 2 * bytes + 1

/-- **The automaton of a pattern is linear in the pattern.**  The operations
are those that building the rules of the pattern performs, in order. -/
theorem ofPattern_linear {pattern : String} {nfa : Nfa} (h : Nfa.ofPattern? pattern = .ok nfa) :
    ∃ rules assembly operations steps, readRules pattern = .ok rules ∧
      Assembly.ofRules? rules = .ok assembly ∧ assembly.finish = .ok nfa ∧
      Assembly.record? rules = .ok (assembly, operations) ∧
      Arena.empty.run operations = .ok (steps, assembly.arena) ∧
      nfa.LinearIn (utf8 pattern).length operations := by
  obtain ⟨rules, hread, hnfa⟩ := exists_rules_of_ofPattern h
  obtain ⟨assembly, hassembly, hfinish⟩ := exists_of_bind_eq_ok hnfa
  obtain ⟨hne, _⟩ := readRules_sound hread
  cases rules with
  | nil => exact absurd rfl hne
  | cons rule rules =>
      obtain ⟨operations, steps, hrecord, hrun, hcount, hreleases⟩ :=
        Assembly.exists_record hassembly
      obtain ⟨hsplices, hlive⟩ := Arena.live_of_run hrun hreleases
      obtain ⟨hledger, _⟩ := Arena.ledger_empty.run hrun
      obtain ⟨_, hcompacted⟩ := hledger.exists_compacted_of_finish hfinish
      have hsize := hcompacted.size
      have hle : operations.count .alloc ≤ 2 * (utf8 pattern).length + 1 := by
        rw [hcount]
        exact allocationsOf_le_of_readRules hread
      refine ⟨_, assembly, operations, steps, hread, hassembly, hfinish, hrecord, hrun, hle,
        hreleases, hsplices, hsize.trans hlive, ?_⟩
      rw [hsize, hlive]
      exact Nat.le_trans (Nat.sub_le _ _) hle

/-- The bound is reached by a pattern of four bytes, none of which is joined
to another one. -/
theorem ofPattern_linear_reached :
    ∃ nfa, Nfa.ofPattern? "a*|b" = .ok nfa ∧ nfa.size = 2 * (utf8 "a*|b").length + 1 ∧
      ∃ rules assembly operations steps, readRules "a*|b" = .ok rules ∧
        Assembly.ofRules? rules = .ok assembly ∧ assembly.finish = .ok nfa ∧
        Assembly.record? rules = .ok (assembly, operations) ∧
        Arena.empty.run operations = .ok (steps, assembly.arena) ∧
        nfa.LinearIn (utf8 "a*|b").length operations := by
  have hsize : ((Nfa.ofPattern? "a*|b").map Nfa.size).toOption =
      some (2 * (utf8 "a*|b").length + 1) := by decide +kernel
  cases h : Nfa.ofPattern? "a*|b" with
  | error e =>
      rw [h] at hsize
      cases hsize
  | ok nfa =>
      rw [h] at hsize
      exact ⟨nfa, rfl, Option.some.inj hsize, ofPattern_linear h⟩

end Nfa

end LineScan
