/-
  LineScan.Proofs.Nfa.Closure
  ───────────────────────────
  **THE CLOSURE OF A SET OF NODES.**

  A `Flood` is the search for everything that a set reaches over epsilon
  edges, as a loop over a stack: a node is marked when it is put on the stack,
  and when it is taken off, those of its targets that are not marked yet
  follow it there.  Nothing bounds the loop; `Flood.Runs` has a derivation for
  every run that ends, with the nodes that were taken off.

      once       a marked node has been taken off or is on the stack, once
      followed   the targets of a node that has been taken off are marked
      reached    a marked node is reached from the set

  At the end the stack is empty, so all marked nodes have been followed, and
  they are the closure.  The loop gets there on every graph, cycles included:
  a round may lengthen the stack, but each node that it adds is one node less
  to be marked, and the node that it takes off is gone for good
  (`size_visit_le`).

  As reachability, closing is idempotent, monotone and compatible with unions.
-/
import LineScan.Proofs.BitSet
import LineScan.Proofs.Nfa.Simulation
import Mathlib.Logic.Relation

namespace LineScan

/-! ## §1. Inclusion. -/

namespace BitSet

variable {c : Nat} {s t : BitSet c}

/-- One set lies inside another one. -/
instance : HasSubset (BitSet c) := ⟨fun s t => ∀ k, s.contains k = true → t.contains k = true⟩

theorem subset_antisymm (h : s ⊆ t) (h' : t ⊆ s) : s = t :=
  ext fun i => Bool.eq_iff_iff.2 ⟨h i, h' i⟩

/-- A number that is added joins the members. -/
theorem members_insert_perm {i : Fin c} (h : s.contains i = false) :
    (s.insert i).members.Perm (i :: s.members) := by
  have hfresh : i ∉ s.members := by
    rw [mem_members, h]
    exact Bool.false_ne_true
  have hnodup : (i :: s.members).Nodup := List.nodup_cons.2 ⟨hfresh, s.nodup_members⟩
  refine (List.perm_ext_iff_of_nodup (nodup_members _) hnodup).2 fun k => ?_
  rw [mem_members, List.mem_cons, mem_members, contains_insert, Bool.or_eq_true,
    decide_eq_true_eq, ← Fin.ext_iff, or_comm]

end BitSet

namespace Nfa

variable {nfa : Nfa} {s t : nfa.NodeSet} {i j : Fin nfa.size}

/-! ## §2. Moves that consume nothing. -/

/-- An epsilon node leads to either of its references. -/
def Silent (nfa : Nfa) (i j : Fin nfa.size) : Prop :=
  (nfa.node i).edge = .epsilon ∧ ((nfa.node i).next = some j ∨ (nfa.node i).other = some j)

/-- **Zero or more such moves** lead from a node to another one. -/
def Reaches (nfa : Nfa) : Fin nfa.size → Fin nfa.size → Prop :=
  Relation.ReflTransGen nfa.Silent

theorem silent_iff : nfa.Silent i j ↔ j ∈ (nfa.node i).epsilonTargets := by
  rw [Node.mem_epsilonTargets, Node.mem_refs, Silent]

/-- Paths without symbols are moves that consume nothing. -/
theorem path_nil_iff : Path nfa.graph i [] j ↔ nfa.Reaches i j := by
  constructor
  · intro h
    generalize hw : ([] : Word) = w at h
    induction h with
    | nil => exact .refl
    | epsilon hn hj _ ih =>
        cases hn
        exact .head (silent_iff.2 hj) (ih hw)
    | byte => cases hw
  · intro h
    induction h using Relation.ReflTransGen.head_induction_on with
    | refl => exact .nil j
    | head hstep _ ih => exact .epsilon rfl (silent_iff.1 hstep) ih

/-- **The closure of a set holds exactly what the set reaches.** -/
theorem contains_close_iff_reaches :
    (nfa.close s).contains j = true ↔
      ∃ i : Fin nfa.size, s.contains i = true ∧ nfa.Reaches i j := by
  rw [contains_close_iff]
  exact exists_congr fun i => and_congr_right fun _ => path_nil_iff

/-! ## §3. The search. -/

/-- How far a search has come. -/
structure Flood (nfa : Nfa) where
  /-- The nodes that have been found. -/
  marked : nfa.NodeSet
  /-- Those of them that are still to be followed, the next one first. -/
  stack : List (Fin nfa.size)

namespace Flood

variable {f : Flood nfa} {popped popped' : List (Fin nfa.size)}

/-- A set is marked, and nothing has been followed; the largest node is the
first. -/
def start (s : nfa.NodeSet) : Flood nfa := ⟨s, s.members.reverse⟩

/-- Marks a node and puts it on the stack, unless it is marked already. -/
def mark (f : Flood nfa) (j : Fin nfa.size) : Flood nfa :=
  if f.marked.contains j then f else ⟨f.marked.insert j, j :: f.stack⟩

/-- Follows a node that has been taken off the stack. -/
def visit (f : Flood nfa) (i : Fin nfa.size) : Flood nfa :=
  (nfa.node i).epsilonTargets.foldl mark f

/-- **The loop**: nodes are taken off the stack and followed until none is
left. -/
inductive Runs : Flood nfa → List (Fin nfa.size) → nfa.NodeSet → Prop
  /-- The stack is empty. -/
  | ends {marked : nfa.NodeSet} : Runs ⟨marked, []⟩ [] marked
  /-- A node is taken off and followed. -/
  | pops {marked result : nfa.NodeSet} {i : Fin nfa.size} {stack popped : List (Fin nfa.size)}
      (rest : Runs (visit ⟨marked, stack⟩ i) popped result) :
      Runs ⟨marked, i :: stack⟩ (i :: popped) result

/-- The loop ends in one way at most. -/
theorem Runs.unique (h : Runs f popped s) (h' : Runs f popped' t) : popped' = popped ∧ t = s := by
  induction h generalizing popped' with
  | ends =>
      cases h'
      exact ⟨rfl, rfl⟩
  | pops _ ih =>
      cases h' with
      | pops rest' =>
          obtain ⟨hpopped, ht⟩ := ih rest'
          exact ⟨by rw [hpopped], ht⟩

/-! ## §4. What marking does. -/

theorem contains_mark (f : Flood nfa) (j : Fin nfa.size) (k : Nat) :
    (f.mark j).marked.contains k = (f.marked.contains k || decide (k = j)) := by
  unfold mark
  split
  case isTrue h =>
    by_cases hk : k = j
    · rw [hk, h, Bool.true_or]
    · rw [decide_eq_false hk, Bool.or_false]
  case isFalse => exact f.marked.contains_insert j k

theorem contains_foldl_mark (targets : List (Fin nfa.size)) (f : Flood nfa) :
    (targets.foldl mark f).marked.contains j = true ↔
      f.marked.contains j = true ∨ j ∈ targets := by
  induction targets generalizing f with
  | nil => simp
  | cons k targets ih =>
      rw [List.foldl_cons, ih, contains_mark, Bool.or_eq_true, decide_eq_true_eq, ← Fin.ext_iff,
        List.mem_cons, or_assoc]

/-- **Following a node** marks what it leads to. -/
theorem contains_visit :
    (f.visit i).marked.contains j = true ↔ f.marked.contains j = true ∨ nfa.Silent i j := by
  rw [visit, contains_foldl_mark, silent_iff]

/-- The marked nodes are those taken off and those on the stack, each once. -/
def Once (popped : List (Fin nfa.size)) (f : Flood nfa) : Prop :=
  (popped ++ f.stack).Perm f.marked.members

theorem Once.mark (h : Once popped f) (j : Fin nfa.size) : Once popped (f.mark j) := by
  unfold Flood.mark
  split
  case isTrue => exact h
  case isFalse hj =>
    calc popped ++ j :: f.stack
      _ |>.Perm (j :: (popped ++ f.stack)) := List.perm_middle
      _ |>.Perm (j :: f.marked.members) := h.cons j
      _ |>.Perm (f.marked.insert j).members :=
        (BitSet.members_insert_perm (Bool.eq_false_iff.2 hj)).symm

theorem Once.foldl_mark (targets : List (Fin nfa.size)) (h : Once popped f) :
    Once popped (targets.foldl Flood.mark f) := by
  induction targets generalizing f with
  | nil => exact h
  | cons j targets ih => exact ih (h.mark j)

/-- The nodes on the stack and those not marked yet. -/
def size (f : Flood nfa) : Nat := f.marked.absent.length + f.stack.length

theorem size_mark_le (f : Flood nfa) (j : Fin nfa.size) : (f.mark j).size ≤ f.size := by
  unfold mark
  split
  case isTrue => exact Nat.le_refl _
  case isFalse hj =>
    have hlt := BitSet.length_absent_insert_lt (Bool.eq_false_iff.2 hj)
    show (f.marked.insert j).absent.length + (f.stack.length + 1) ≤
      f.marked.absent.length + f.stack.length
    omega

/-- **Following a node costs nothing**: what joins the stack was not marked. -/
theorem size_visit_le (f : Flood nfa) (i : Fin nfa.size) : (f.visit i).size ≤ f.size := by
  unfold visit
  generalize (nfa.node i).epsilonTargets = targets
  induction targets generalizing f with
  | nil => exact Nat.le_refl _
  | cons j targets ih => exact (ih (f.mark j)).trans (f.size_mark_le j)

/-! ## §5. What a round keeps. -/

/-- **What holds of a search from `s`** when these nodes have been taken
off. -/
structure Sound (s : nfa.NodeSet) (popped : List (Fin nfa.size)) (f : Flood nfa) : Prop where
  /-- A marked node has been taken off or is on the stack, once. -/
  once : Once popped f
  /-- The set is marked. -/
  kept : s ⊆ f.marked
  /-- A marked node is reached from the set. -/
  reached : ∀ j : Fin nfa.size, f.marked.contains j = true →
    ∃ i : Fin nfa.size, s.contains i = true ∧ nfa.Reaches i j
  /-- What a node leads to is marked once it has been taken off. -/
  followed : ∀ i ∈ popped, ∀ j : Fin nfa.size, nfa.Silent i j → f.marked.contains j = true

theorem sound_start (s : nfa.NodeSet) : Sound s [] (start s) where
  once := List.reverse_perm _
  kept := fun _ h => h
  reached := fun j hj => ⟨j, hj, .refl⟩
  followed := by simp

/-- **A round keeps it.** -/
theorem Sound.visit {marked : nfa.NodeSet} {stack : List (Fin nfa.size)}
    (h : Sound s popped ⟨marked, i :: stack⟩) :
    Sound s (popped ++ [i]) (Flood.visit ⟨marked, stack⟩ i) := by
  have hi : marked.contains i = true :=
    BitSet.mem_members.1 (h.once.mem_iff.1 (by simp))
  have hgrows : ∀ k : Fin nfa.size, marked.contains k = true →
      (Flood.visit ⟨marked, stack⟩ i).marked.contains k = true :=
    fun k hk => contains_visit.2 (.inl hk)
  constructor
  case once =>
    refine Once.foldl_mark _ ?_
    show (popped ++ [i] ++ stack).Perm marked.members
    rw [List.append_assoc]
    exact h.once
  case kept =>
    intro k hk
    exact hgrows ⟨k, BitSet.lt_of_contains hk⟩ (h.kept k hk)
  case reached =>
    intro j hj
    rcases contains_visit.1 hj with hold | hnew
    · exact h.reached j hold
    · obtain ⟨k, hk, hreaches⟩ := h.reached i hi
      exact ⟨k, hk, hreaches.tail hnew⟩
  case followed =>
    intro k hk j hj
    rcases List.mem_append.1 hk with hold | hnew
    · exact hgrows j (h.followed k hold j hj)
    · rw [List.mem_singleton.1 hnew] at hj
      exact contains_visit.2 (.inr hj)

/-- **When the stack is empty, the marked nodes are the closure.** -/
theorem Sound.eq_close (h : Sound s popped ⟨t, []⟩) : t = nfa.close s := by
  have hpopped : ∀ i : Fin nfa.size, t.contains i = true → i ∈ popped := by
    intro i hi
    have honce : (popped ++ []).Perm t.members := h.once
    rw [List.append_nil] at honce
    exact honce.mem_iff.2 (BitSet.mem_members.2 hi)
  refine BitSet.ext fun j => Bool.eq_iff_iff.2 ?_
  rw [contains_close_iff_reaches]
  constructor
  · exact h.reached j
  · rintro ⟨i, hi, hreaches⟩
    -- every node on the way has been taken off, and so the next one is marked
    induction hreaches with
    | refl => exact h.kept i hi
    | tail _ hstep ih => exact h.followed _ (hpopped _ ih) _ hstep

/-- **The loop ends**: each round takes a node off that no round puts back. -/
theorem Sound.exists_runs (h : Sound s popped f) :
    ∃ popped' t, Runs f popped' t ∧ Sound s (popped ++ popped') ⟨t, []⟩ := by
  induction hn : f.size using Nat.strong_induction_on generalizing popped f with
  | _ n ih =>
      obtain ⟨marked, stack⟩ := f
      cases stack with
      | nil => exact ⟨[], marked, .ends, by rwa [List.append_nil]⟩
      | cons i stack =>
          have hlt : (Flood.visit ⟨marked, stack⟩ i).size < n := by
            rw [← hn]
            exact Nat.lt_of_le_of_lt (size_visit_le _ i) (Nat.lt_succ_self _)
          obtain ⟨popped', t, hruns, hsound⟩ := ih _ hlt h.visit rfl
          rw [List.append_assoc] at hsound
          exact ⟨i :: popped', t, .pops hruns, hsound⟩

/-- **The loop ends with the closure**, when it has taken every node of it off
once. -/
theorem exists_runs_close (s : nfa.NodeSet) :
    ∃ popped, Runs (start s) popped (nfa.close s) ∧ popped.Perm (nfa.close s).members := by
  obtain ⟨popped, t, hruns, hsound⟩ := (sound_start s).exists_runs
  have ht := hsound.eq_close
  have honce : ([] ++ popped ++ []).Perm t.members := hsound.once
  rw [List.nil_append, List.append_nil] at honce
  exact ⟨popped, ht ▸ hruns, ht ▸ honce⟩

end Flood

/-! ## §6. Closing sets. -/

theorem subset_close (s : nfa.NodeSet) : s ⊆ nfa.close s := by
  intro k hk
  exact contains_close_iff_reaches (j := ⟨k, BitSet.lt_of_contains hk⟩).2 ⟨_, hk, .refl⟩

/-- No move that consumes nothing leaves a closure. -/
theorem contains_close_of_silent (hi : (nfa.close s).contains i = true) (h : nfa.Silent i j) :
    (nfa.close s).contains j = true := by
  obtain ⟨k, hk, hreaches⟩ := contains_close_iff_reaches.1 hi
  exact contains_close_iff_reaches.2 ⟨k, hk, hreaches.tail h⟩

/-- A closure lies inside every set that holds what it is the closure of and
that no such move leaves. -/
theorem close_subset_of_closed (hs : s ⊆ t)
    (ht : ∀ i j : Fin nfa.size, t.contains i = true → nfa.Silent i j → t.contains j = true) :
    nfa.close s ⊆ t := by
  have hreached : ∀ j : Fin nfa.size, (nfa.close s).contains j = true → t.contains j = true := by
    intro j hj
    obtain ⟨i, hi, hreaches⟩ := contains_close_iff_reaches.1 hj
    clear hj
    induction hreaches with
    | refl => exact hs i hi
    | tail _ hstep ih => exact ht _ _ ih hstep
  exact fun k hk => hreached ⟨k, BitSet.lt_of_contains hk⟩ hk

theorem close_mono (h : s ⊆ t) : nfa.close s ⊆ nfa.close t :=
  close_subset_of_closed (fun k hk => subset_close t k (h k hk))
    fun _ _ => contains_close_of_silent

theorem close_close (s : nfa.NodeSet) : nfa.close (nfa.close s) = nfa.close s :=
  BitSet.subset_antisymm
    (close_subset_of_closed (fun _ hk => hk) fun _ _ => contains_close_of_silent)
    (subset_close _)

theorem close_union (s t : nfa.NodeSet) :
    nfa.close (s.union t) = (nfa.close s).union (nfa.close t) := by
  refine BitSet.ext fun j => Bool.eq_iff_iff.2 ?_
  simp only [BitSet.contains_union, Bool.or_eq_true, contains_close_iff_reaches, or_and_right,
    exists_or]

/-- **What closing the sets of an automaton amounts to.** -/
structure Closes (nfa : Nfa) : Prop where
  /-- The loop ends for every set, with the closure, when it has taken every
  node of the closure off the stack once. -/
  ends : ∀ s : nfa.NodeSet, ∃ popped, Flood.Runs (.start s) popped (nfa.close s) ∧
    popped.Perm (nfa.close s).members
  /-- It cannot end in another way. -/
  only : ∀ (s t : nfa.NodeSet) popped, Flood.Runs (.start s) popped t → t = nfa.close s
  /-- The closure holds exactly the nodes that the set reaches. -/
  contains_iff : ∀ (s : nfa.NodeSet) (j : Fin nfa.size), (nfa.close s).contains j = true ↔
    ∃ i : Fin nfa.size, s.contains i = true ∧ nfa.Reaches i j
  /-- Nothing is lost. -/
  subset : ∀ s : nfa.NodeSet, s ⊆ nfa.close s
  /-- No move that consumes nothing leaves the closure. -/
  closed : ∀ (s : nfa.NodeSet) (i j : Fin nfa.size), (nfa.close s).contains i = true →
    nfa.Silent i j → (nfa.close s).contains j = true
  /-- It lies inside every larger set that no such move leaves. -/
  least : ∀ s t : nfa.NodeSet, s ⊆ t →
    (∀ i j : Fin nfa.size, t.contains i = true → nfa.Silent i j → t.contains j = true) →
    nfa.close s ⊆ t
  /-- Closing again changes nothing. -/
  idempotent : ∀ s : nfa.NodeSet, nfa.close (nfa.close s) = nfa.close s
  /-- A larger set has a larger closure. -/
  monotone : ∀ s t : nfa.NodeSet, s ⊆ t → nfa.close s ⊆ nfa.close t
  /-- The closure of a union is the union of the closures. -/
  union : ∀ s t : nfa.NodeSet, nfa.close (s.union t) = (nfa.close s).union (nfa.close t)

/-- **Closing a set gives the least set around it that no move without
consumption leaves**, for every automaton and every set of its nodes: the
search ends, with exactly the nodes that such moves reach. -/
theorem close_is_least_closure (nfa : Nfa) : nfa.Closes where
  ends := Flood.exists_runs_close
  only s t popped h := by
    obtain ⟨popped', hruns, _⟩ := Flood.exists_runs_close s
    exact (hruns.unique h).2
  contains_iff _ _ := contains_close_iff_reaches
  subset := subset_close
  closed _ _ _ := contains_close_of_silent
  least _ _ := close_subset_of_closed
  idempotent := close_close
  monotone _ _ := close_mono
  union := close_union

end Nfa

end LineScan
