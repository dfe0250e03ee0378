/-
  LineScan.Proofs.Nfa.Recording
  ─────────────────────────────
  **THE OPERATIONS THAT BUILDING TAKES.**

  A `Recorder` is an arena that writes down what is done to it.  It is a
  `Store`, so the constructs of an automaton can be built in it as they are
  built in an arena, by the same functions.

  Each construct satisfies one statement: whenever building succeeds in the
  arena, it succeeds in the recorder, with the same fragment and the same
  nodes, and what was written down

      runs            performed on the arena before, it leads to the one after
      asks            for as many slots as the construct is said to ask for
      releases        no slot other than by a splice

  (`Recorder.Logs`).  There is one rule for each operation of a store and one
  for each way to go on, and the proof for a construct applies them in the
  order in which the construct is written.
-/
import LineScan.Nfa.Thompson
import LineScan.Proofs.Nfa.History
import LineScan.Proofs.Plain.Access
import Mathlib.Algebra.Ring.Nat

namespace LineScan

/-! ## §1. Operations on an arena. -/

/-- A step that is taken in some cases only, and what follows it. -/
theorem ite_bind_eq {ε α β : Type} {c : Prop} [Decidable c] (x y : Except ε α)
    (f : α → Except ε β) :
    (if c then x >>= f else y >>= f) = ((if c then x else y) >>= f) := by
  split <;> rfl

namespace Arena

/-- Whether an operation merges one node into another. -/
def Operation.isSplice : Operation → Bool
  | .splice _ _ => true
  | _ => false

/-- **No slot is released other than by a splice.** -/
def OnlySplices (operations : List Operation) : Prop :=
  ∀ operation ∈ operations, operation.givesBack ≠ none → operation.isSplice = true

variable {a b c : Arena} {operation : Operation} {operations operations' : List Operation}
  {steps steps' : List Step} {out : Option Nat}

/-- Operations performed one after the other. -/
theorem run_append (h : a.run operations = .ok (steps, b))
    (h' : b.run operations' = .ok (steps', c)) :
    a.run (operations ++ operations') = .ok (steps ++ steps', c) := by
  induction operations generalizing a steps with
  | nil =>
      cases h
      exact h'
  | cons operation rest ih =>
      obtain ⟨⟨out, a'⟩, hstep, h⟩ := exists_of_bind_eq_ok h
      obtain ⟨⟨further, b'⟩, hrest, h⟩ := exists_of_bind_eq_ok h
      cases h
      rw [List.cons_append, run, hstep, ok_bind]
      show (a'.run (rest ++ operations') >>= _) = _
      rw [ih hrest]
      rfl

theorem run_singleton (h : a.perform operation = .ok (out, b)) :
    a.run [operation] = .ok ([⟨operation, out⟩], b) := by
  rw [run, h]
  rfl

/-- An allocation uses a free slot or adds one, a splice frees one, and a
write leaves both numbers as they are. -/
theorem perform_balance (ha : a.Consistent) (h : a.perform operation = .ok (out, b))
    (hback : operation.givesBack ≠ none → operation.isSplice = true) :
    b.free.length + a.slots.size + [operation].count .alloc =
      a.free.length + b.slots.size + [operation].countP Operation.isSplice := by
  cases operation with
  | alloc =>
      cases h
      exact (alloc_effect ha).2.1
  | discard slot => exact absurd (hback (by simp [Operation.givesBack])) Bool.false_ne_true
  | splice target source =>
      obtain ⟨_, hdone⟩ := eq_ok_of_map_eq_ok h
      obtain ⟨_, _, _, _, _, hslots, hfree, _⟩ := splice_effect hdone
      rw [hslots, hfree, List.length_cons]
      show _ + 1 + _ + 0 = _ + _ + 1
      omega
  | setNext | setOther | setEdge | setAnchor =>
      obtain ⟨_, hdone⟩ := eq_ok_of_map_eq_ok h
      obtain ⟨_, _, hslots, hfree, _⟩ := modify_effect hdone
      rw [hslots, hfree]
      rfl

/-- **The books of a history** without releases other than by splices. -/
theorem Ledger.balance {further : List Step} (h : Ledger a steps)
    (hrun : a.run operations = .ok (further, b)) (hsplices : OnlySplices operations) :
    b.free.length + a.slots.size + operations.count .alloc =
      a.free.length + b.slots.size + operations.countP Operation.isSplice := by
  induction operations generalizing a steps further with
  | nil =>
      cases hrun
      rfl
  | cons operation rest ih =>
      obtain ⟨⟨out, a'⟩, hstep, hrun⟩ := exists_of_bind_eq_ok hrun
      obtain ⟨⟨further', b'⟩, hrest, hrun⟩ := exists_of_bind_eq_ok hrun
      cases hrun
      -- the balance of the first operation and that of the rest add up
      have hfirst := perform_balance h.consistent hstep (hsplices _ List.mem_cons_self)
      have hothers := ih (h.perform hstep) hrest
        fun other hother => hsplices other (List.mem_cons_of_mem _ hother)
      rw [← List.singleton_append, List.count_append, List.countP_append]
      omega

/-- **The nodes are the allocations without the splices**, as long as nothing
else releases a slot. -/
theorem live_of_run (hrun : empty.run operations = .ok (steps, a))
    (hsplices : OnlySplices operations) :
    operations.countP Operation.isSplice ≤ operations.count .alloc ∧
      a.live = operations.count .alloc - operations.countP Operation.isSplice := by
  obtain ⟨hledger, _⟩ := ledger_empty.run hrun
  have hcount := hledger.count
  have hbalance : a.free.length + 0 + operations.count .alloc =
      0 + a.slots.size + operations.countP Operation.isSplice :=
    ledger_empty.balance hrun hsplices
  rw [live]
  omega

end Arena

/-! ## §2. Recorders. -/

open Arena (Operation OnlySplices)

/-- An arena, and what has been done to it, in order. -/
structure Recorder where
  /-- The arena. -/
  arena : Arena
  /-- What has been done. -/
  operations : List Operation

namespace Recorder

/-- Nothing has been done. -/
def start : Recorder := ⟨Arena.empty, []⟩

/-- Performs an operation that hands out no slot. -/
def perform (r : Recorder) (operation : Operation) : Except Fault Recorder := do
  let (_, arena) ← r.arena.perform operation
  return ⟨arena, r.operations ++ [operation]⟩

end Recorder

/-- **Building with a record**: every operation is performed and written
down. -/
instance : Store Recorder where
  alloc r := .ok (r.arena.alloc.1, ⟨r.arena.alloc.2, r.operations ++ [.alloc]⟩)
  splice r target source := r.perform (.splice target source)
  setNext r slot reference := r.perform (.setNext slot reference)
  setOther r slot reference := r.perform (.setOther slot reference)
  setEdge r slot edge := r.perform (.setEdge slot edge)
  setAnchor r slot anchor := r.perform (.setAnchor slot anchor)

/-- **The rules of a pattern**, built with a record of the operations that it
took. -/
def Assembly.record? (rules : List Rule) : Except Fault (Assembly × List Operation) := do
  let ((start, fragments), r) ← buildRules rules Recorder.start
  return ({ arena := r.arena, start, fragments }, r.operations)

namespace Recorder

/-- **What has been done in between**: operations that lead from the one arena
to the other, with this many allocations. -/
structure Spends (allocations : Nat) (r r' : Recorder) : Prop where
  /-- They were written down behind the ones before. -/
  operations : ∃ further, r'.operations = r.operations ++ further ∧
    further.count .alloc = allocations ∧ OnlySplices further ∧
    ∃ steps, r.arena.run further = .ok (steps, r'.arena)

variable {r r₁ r₂ : Recorder} {m n : Nat} {operation : Operation}

theorem Spends.refl (r : Recorder) : Spends 0 r r :=
  ⟨[], (List.append_nil _).symm, rfl, fun _ h => absurd h List.not_mem_nil, [], rfl⟩

/-- One thing after the other. -/
theorem Spends.trans (h : Spends m r r₁) (h' : Spends n r₁ r₂) : Spends (m + n) r r₂ := by
  obtain ⟨⟨further, hops, hcount, hsplices, steps, hrun⟩⟩ := h
  obtain ⟨⟨further', hops', hcount', hsplices', steps', hrun'⟩⟩ := h'
  refine ⟨further ++ further', ?_, ?_, ?_, _, Arena.run_append hrun hrun'⟩
  · rw [hops', hops, List.append_assoc]
  · rw [List.count_append, hcount, hcount']
  · intro operation hmem
    rcases List.mem_append.1 hmem with hmem | hmem
    · exact hsplices operation hmem
    · exact hsplices' operation hmem

/-! ## §3. Building with a record and without. -/

/-- **A write to the nodes** that succeeds on the arena is written down. -/
def Writes (r : Recorder) (x : Except Fault Recorder) (y : Except Fault Arena) : Prop :=
  ∀ a, y = .ok a → ∃ r', x = .ok r' ∧ r'.arena = a ∧ Spends 0 r r'

/-- **A part of a construction** that succeeds on the arena succeeds on the
recorder, with the same result and the same nodes, and asks for this many
slots. -/
def Logs {α : Type} (n : Nat) (r : Recorder) (x : Except Fault (α × Recorder))
    (y : Except Fault (α × Arena)) : Prop :=
  ∀ v a, y = .ok (v, a) → ∃ r', x = .ok (v, r') ∧ r'.arena = a ∧ Spends n r r'

/-! ### The operations. -/

/-- An operation other than an allocation. -/
theorem writes_perform {y : Except Fault Arena}
    (hy : r.arena.perform operation = y.map (none, ·)) (hne : operation ≠ .alloc)
    (hback : operation.givesBack ≠ none → operation.isSplice = true) :
    Writes r (r.perform operation) y := by
  intro a h
  rw [h] at hy
  refine ⟨⟨a, r.operations ++ [operation]⟩, ?_, rfl, [operation], rfl, ?_, ?_, _,
    Arena.run_singleton hy⟩
  · unfold perform
    rw [hy]
    rfl
  · rw [List.count_singleton, if_neg (by simpa using hne)]
  · intro other hmem
    rw [List.mem_singleton.1 hmem]
    exact hback

section
variable {i j : Nat} {t : Option Nat} {edge : Edge} {anchor : Anchor}

theorem writes_setNext : Writes r (Store.setNext r i t) (Store.setNext r.arena i t) :=
  writes_perform rfl (by simp) (fun h => absurd rfl h)

theorem writes_setOther : Writes r (Store.setOther r i t) (Store.setOther r.arena i t) :=
  writes_perform rfl (by simp) (fun h => absurd rfl h)

theorem writes_setEdge : Writes r (Store.setEdge r i edge) (Store.setEdge r.arena i edge) :=
  writes_perform rfl (by simp) (fun h => absurd rfl h)

theorem writes_setAnchor :
    Writes r (Store.setAnchor r i anchor) (Store.setAnchor r.arena i anchor) :=
  writes_perform rfl (by simp) (fun h => absurd rfl h)

theorem writes_splice : Writes r (Store.splice r i j) (Store.splice r.arena i j) :=
  writes_perform rfl (by simp) (fun _ => rfl)

end

/-! ### The ways to go on. -/

section
variable {α β : Type} {x : Except Fault (α × Recorder)} {y : Except Fault (α × Arena)}

theorem logs_pure (v : α) : Logs 0 r (pure (v, r)) (pure (v, r.arena)) := by
  intro v a h
  cases h
  exact ⟨r, rfl, rfl, .refl r⟩

/-- A slot is asked for first. -/
theorem Logs.alloc {k : Nat × Recorder → Except Fault (α × Recorder)}
    {k' : Nat × Arena → Except Fault (α × Arena)}
    (h : ∀ i r', Logs n r' (k (i, r')) (k' (i, r'.arena))) :
    Logs (n + 1) r (Store.alloc r >>= k) (Store.alloc r.arena >>= k') := by
  intro v a ha
  have hspends : Spends 1 r ⟨r.arena.alloc.2, r.operations ++ [.alloc]⟩ := by
    refine ⟨[.alloc], rfl, rfl, ?_, _, rfl⟩
    intro operation hmem hback
    rw [List.mem_singleton.1 hmem] at hback
    exact absurd rfl hback
  obtain ⟨r', hr', harena, hs⟩ :=
    h r.arena.alloc.1 ⟨r.arena.alloc.2, r.operations ++ [.alloc]⟩ v a ha
  exact ⟨r', hr', harena, Nat.add_comm 1 n ▸ hspends.trans hs⟩

/-- Something is written first. -/
theorem Writes.bind {x : Except Fault Recorder} {y : Except Fault Arena}
    {k : Recorder → Except Fault (α × Recorder)} {k' : Arena → Except Fault (α × Arena)}
    (hx : Writes r x y) (h : ∀ r', Logs n r' (k r') (k' r'.arena)) :
    Logs n r (x >>= k) (y >>= k') := by
  intro v a ha
  obtain ⟨b, hb, ha⟩ := exists_of_bind_eq_ok ha
  obtain ⟨r₁, hr₁, rfl, hs₁⟩ := hx b hb
  obtain ⟨r₂, hr₂, harena, hs₂⟩ := h r₁ v a ha
  refine ⟨r₂, ?_, harena, Nat.zero_add n ▸ hs₁.trans hs₂⟩
  rw [hr₁]
  exact hr₂

/-- Something is built first. -/
theorem Logs.bind {k : α × Recorder → Except Fault (β × Recorder)}
    {k' : α × Arena → Except Fault (β × Arena)} (hx : Logs m r x y)
    (h : ∀ v r', Logs n r' (k (v, r')) (k' (v, r'.arena))) :
    Logs (m + n) r (x >>= k) (y >>= k') := by
  intro w a ha
  obtain ⟨⟨v, b⟩, hb, ha⟩ := exists_of_bind_eq_ok ha
  obtain ⟨r₁, hr₁, rfl, hs₁⟩ := hx v b hb
  obtain ⟨r₂, hr₂, harena, hs₂⟩ := h v r₁ w a ha
  refine ⟨r₂, ?_, harena, hs₁.trans hs₂⟩
  rw [hr₁]
  exact hr₂

end

end Recorder

/-! ## §4. Expressions. -/

open Recorder (Logs logs_pure writes_setNext writes_setOther writes_setEdge writes_setAnchor
  writes_splice)

/-- The number of slots that building an expression asks for. -/
def Regex.allocations : Regex → Nat
  | .symbol _ | .cls _ => 2
  | .cat first second => first.allocations + second.allocations
  | .alt left right => left.allocations + (right.allocations + 2)
  | .star body | .plus body | .optional body => body.allocations + 2

section
variable (r : Recorder)

theorem Edge.logs_build (e : Edge) : Logs 2 r (e.build r) (e.build r.arena) := by
  unfold build
  refine .alloc fun first r => ?_
  refine .alloc fun last r => ?_
  refine writes_setNext.bind fun r => ?_
  refine writes_setEdge.bind fun r => ?_
  exact logs_pure _

theorem Fragment.logs_enclose (f : Fragment) (skips repeats : Bool) :
    Logs 2 r (f.enclose skips repeats r) (f.enclose skips repeats r.arena) := by
  unfold enclose
  refine .alloc fun first r => ?_
  refine .alloc fun last r => ?_
  refine writes_setNext.bind fun r => ?_
  refine writes_setNext.bind fun r => ?_
  cases skips <;> cases repeats
  case false.false => exact logs_pure _
  case false.true => exact writes_setOther.bind fun r => logs_pure _
  case true.false => exact writes_setOther.bind fun r => logs_pure _
  case true.true =>
    refine writes_setOther.bind fun r => ?_
    exact writes_setOther.bind fun r => logs_pure _

theorem Fragment.logs_either (f g : Fragment) :
    Logs 2 r (f.either g r) (f.either g r.arena) := by
  unfold either
  refine .alloc fun fork r => ?_
  refine writes_setNext.bind fun r => ?_
  refine writes_setOther.bind fun r => ?_
  refine .alloc fun join r => ?_
  refine writes_setNext.bind fun r => ?_
  refine writes_setNext.bind fun r => ?_
  exact logs_pure _

/-- **An expression** asks for as many slots as it is said to. -/
theorem Regex.logs_build (e : Regex) : Logs e.allocations r (e.build r) (e.build r.arena) := by
  -- one case for each construct; concatenation is the one that releases a slot
  induction e generalizing r with
  | symbol s => exact Edge.logs_build r _
  | cls c => exact Edge.logs_build r _
  | cat first second ih ih' =>
      refine (ih r).bind fun f r => ?_
      refine (ih' r).bind (n := 0) fun g r => ?_
      exact writes_splice.bind fun r => logs_pure _
  | alt left right ih ih' =>
      refine (ih r).bind fun f r => ?_
      refine (ih' r).bind fun g r => ?_
      exact f.logs_either r g
  | star body ih | plus body ih | optional body ih =>
      refine (ih r).bind fun f r => ?_
      exact f.logs_enclose r _ _

/-! ## §5. Rules. -/

/-- The number of slots that building a rule asks for. -/
def Rule.allocations (rule : Rule) : Nat :=
  (if rule.bol then 1 else 0) + rule.body.allocations + (if rule.eol then 1 else 0)

/-- The number of slots that building some rules asks for, each with its link
of the chain. -/
def allocationsOf (rules : List Rule) : Nat := (rules.map fun rule => rule.allocations + 1).sum

theorem allocationsOf_cons (rule : Rule) (rules : List Rule) :
    allocationsOf (rule :: rules) = rule.allocations + 1 + allocationsOf rules := rfl

theorem Regex.logs_buildAtLineStart (e : Regex) :
    Logs (e.allocations + 1) r (e.buildAtLineStart r) (e.buildAtLineStart r.arena) := by
  unfold buildAtLineStart
  refine .alloc fun first r => ?_
  refine writes_setEdge.bind fun r => ?_
  refine (e.logs_build r).bind (n := 0) fun f r => ?_
  exact writes_setNext.bind fun r => logs_pure _

theorem Fragment.logs_toLineEnd (f : Fragment) :
    Logs 1 r (f.toLineEnd r) (f.toLineEnd r.arena) := by
  unfold toLineEnd
  refine .alloc fun last r => ?_
  refine writes_setEdge.bind fun r => ?_
  exact writes_setNext.bind fun r => logs_pure _

/-- The beginning of a rule. -/
theorem Rule.logs_start (rule : Rule) :
    Logs ((if rule.bol then 1 else 0) + rule.body.allocations) r
      (if rule.bol then rule.body.buildAtLineStart r else rule.body.build r)
      (if rule.bol then rule.body.buildAtLineStart r.arena else rule.body.build r.arena) := by
  cases rule.bol with
  | true => exact Nat.add_comm 1 _ ▸ rule.body.logs_buildAtLineStart r
  | false => exact (Nat.zero_add _).symm ▸ rule.body.logs_build r

/-- The end of a rule. -/
theorem Rule.logs_end (rule : Rule) (f : Fragment) :
    Logs (if rule.eol then 1 else 0) r (if rule.eol then f.toLineEnd r else pure (f, r))
      (if rule.eol then f.toLineEnd r.arena else pure (f, r.arena)) := by
  cases rule.eol with
  | true => exact f.logs_toLineEnd r
  | false => exact logs_pure f

theorem Rule.logs_build (rule : Rule) :
    Logs rule.allocations r (rule.build r) (rule.build r.arena) := by
  unfold build
  simp only [ite_bind_eq]
  refine (rule.logs_start r).bind fun f r => ?_
  refine (rule.logs_end r f).bind (n := 0) fun f r => ?_
  exact writes_setAnchor.bind fun r => logs_pure _

/-- A chain asks for the slots of its rules, and for a link before each rule
but the first. -/
theorem logs_buildChain (link : Nat) (rule : Rule) (rules : List Rule) :
    Logs (rule.allocations + allocationsOf rules) r (buildChain link r (rule :: rules))
      (buildChain link r.arena (rule :: rules)) := by
  -- the first rule is set apart, since the link before it is already there
  induction rules generalizing link rule r with
  | nil =>
      refine (rule.logs_build r).bind (n := 0) fun f r => ?_
      exact writes_setNext.bind fun r => logs_pure _
  | cons rule' rest ih =>
      rw [allocationsOf_cons, Nat.add_right_comm]
      refine (rule.logs_build r).bind fun f r => ?_
      refine writes_setNext.bind fun r => ?_
      refine .alloc fun further r => ?_
      refine writes_setOther.bind fun r => ?_
      refine (ih r further rule').bind (n := 0) fun fragments r => ?_
      exact logs_pure _

end

/-- **The rules of a pattern are built and recorded alike.**  The record leads
from an arena without slots to the one that was built, asks for a slot for
every node and every link, and releases none other than by a splice. -/
theorem Assembly.exists_record {rule : Rule} {rules : List Rule} {assembly : Assembly}
    (h : Assembly.ofRules? (rule :: rules) = .ok assembly) :
    ∃ operations steps, Assembly.record? (rule :: rules) = .ok (assembly, operations) ∧
      Arena.empty.run operations = .ok (steps, assembly.arena) ∧
      operations.count .alloc = allocationsOf (rule :: rules) ∧ OnlySplices operations := by
  have hlogs : Logs (allocationsOf (rule :: rules)) Recorder.start
      (buildRules (rule :: rules) Recorder.start) (buildRules (rule :: rules) Arena.empty) := by
    rw [allocationsOf_cons, Nat.add_right_comm]
    refine .alloc fun start r => ?_
    refine (logs_buildChain r start rule rules).bind (n := 0) fun fragments r => ?_
    exact logs_pure _
  obtain ⟨⟨⟨start, fragments⟩, arena⟩, hbuilt, h⟩ := exists_of_bind_eq_ok h
  cases h
  obtain ⟨r, hr, rfl, further, hops, hcount, hsplices, steps, hrun⟩ := hlogs _ _ hbuilt
  refine ⟨r.operations, steps, ?_, ?_, ?_, ?_⟩
  · rw [Assembly.record?, hr]
    rfl
  · rw [hops]
    exact hrun
  · rw [hops]
    exact hcount
  · rw [hops]
    exact hsplices

end LineScan
