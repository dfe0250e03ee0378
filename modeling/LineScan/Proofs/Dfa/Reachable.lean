/-
  LineScan.Proofs.Dfa.Reachable
  ─────────────────────────────
  **NO STATE IS THERE FOR NOTHING.**

  An automaton is `Reduced` when every state is reached from the start, some
  word leads on from it to an accepting state, and no two states are
  indistinguishable.  The three come from three places:

      reachable    exploration only finds labels that a word leads to, and
                   no label twice
      live         every node of a label leads onward to a terminal node
      separate     merging has put indistinguishable states together

  The first two hold before merging and are kept by it, since a quotient map
  keeps the outcome of every word (`QuotientMap.outcome_eq`).
-/
import LineScan.Proofs.Dfa.Quotient
import LineScan.Proofs.Nfa.Onward
import LineScan.Proofs.Nfa.Simulation

namespace LineScan

theorem Symbol.exists_map_toByte {w : Word} (h : ∀ b ∈ w, b.toNat < alphabetSize) :
    ∃ v : List Symbol, v.map Symbol.toByte = w := by
  induction w with
  | nil => exact ⟨[], rfl⟩
  | cons b w ih =>
      obtain ⟨v, hv⟩ := ih fun c hc => h c (List.mem_cons_of_mem _ hc)
      have hb := h b List.mem_cons_self
      have hbyte : b = Symbol.toByte ⟨b.toNat, hb⟩ :=
        Symbol.ofByte?_eq_some_iff.1 (by rw [Symbol.ofByte?, dif_pos hb])
      exact ⟨⟨b.toNat, hb⟩ :: v, by rw [List.map_cons, hv, ← hbyte]⟩

/-! ## §1. Reduced automata. -/

namespace Dfa

variable {d d' : Dfa} {s t : Fin d.size} {h : Fin d.size → Fin d'.size}

/-- Some word leads from the start to the state. -/
def Reachable (d : Dfa) (s : Fin d.size) : Prop :=
  ∃ w : List Symbol, d.runFrom d.start (w.map Symbol.toByte) = some s

/-- Some word leads from the state to an accepting one. -/
def Live (d : Dfa) (s : Fin d.size) : Prop :=
  ∃ w : List Symbol, d.outcome s (w.map Symbol.toByte) = some true

/-- **No state is there for nothing.** -/
structure Reduced (d : Dfa) : Prop where
  /-- Every state is reached. -/
  reachable : ∀ s, d.Reachable s
  /-- From every state acceptance is possible. -/
  live : ∀ s, d.Live s
  /-- States that no word tells apart are the same. -/
  separate : ∀ s t, d.Indistinguishable s t → s = t

theorem runFrom_append (d : Dfa) (s : Fin d.size) (u v : Word) :
    d.runFrom s (u ++ v) = (d.runFrom s u).bind fun t => d.runFrom t v := by
  induction u generalizing s with
  | nil => rfl
  | cons b u ih =>
      rw [List.cons_append, runFrom_cons, runFrom_cons]
      cases d.next s b with
      | none => rfl
      | some t => exact ih t

theorem outcome_append (d : Dfa) (s : Fin d.size) (u v : Word) :
    d.outcome s (u ++ v) = (d.runFrom s u).bind fun t => d.outcome t v := by
  unfold outcome
  rw [runFrom_append]
  cases d.runFrom s u <;> rfl

/-- An automaton accepts what its start accepts. -/
theorem accepts_eq_outcome (d : Dfa) (w : Word) :
    d.accepts w = (d.outcome d.start w).getD false := by
  unfold accepts outcome
  cases d.runFrom d.start w <;> rfl

/-! ## §2. Quotients. -/

namespace QuotientMap

theorem runFrom_eq (hq : d.QuotientMap d' h) (s : Fin d.size) (w : Word) :
    d'.runFrom (h s) w = (d.runFrom s w).map h :=
  runFrom_map hq.next s w

theorem accepts_eq (hq : d.QuotientMap d' h) (w : Word) : d'.accepts w = d.accepts w :=
  accepts_map hq.start hq.next hq.accepting w

/-- A quotient map keeps the outcome of every word. -/
theorem outcome_eq (hq : d.QuotientMap d' h) (s : Fin d.size) (w : Word) :
    d'.outcome (h s) w = d.outcome s w := by
  unfold outcome
  rw [hq.runFrom_eq, Option.map_map]
  congr 1
  funext t
  exact hq.accepting t

theorem reachable (hq : d.QuotientMap d' h) (hs : d.Reachable s) : d'.Reachable (h s) := by
  obtain ⟨w, hw⟩ := hs
  exact ⟨w, by rw [← hq.start, hq.runFrom_eq, hw, Option.map_some]⟩

theorem live (hq : d.QuotientMap d' h) (hs : d.Live s) : d'.Live (h s) := by
  obtain ⟨w, hw⟩ := hs
  exact ⟨w, by rw [hq.outcome_eq, hw]⟩

end QuotientMap

/-- Merging leaves no two indistinguishable states. -/
theorem minimize_separate (hd : d.Separate) (i j : Fin d.minimize.size)
    (hij : d.minimize.Indistinguishable i j) : i = j := by
  have hq := quotientMap_minimize hd
  obtain ⟨s, hs⟩ := hq.surjective i
  obtain ⟨t, ht⟩ := hq.surjective j
  subst hs ht
  have hst : d.Indistinguishable s t := by
    intro w
    rw [← hq.outcome_eq, ← hq.outcome_eq]
    exact hij w
  exact mergedInto_eq_iff.2 (blockOf_refinement_eq_iff.2 hst)

/-- **Merging reduces** an automaton whose states are all reached and live. -/
theorem reduced_minimize (hd : d.Separate) (hreach : ∀ s, d.Reachable s)
    (hlive : ∀ s, d.Live s) : d.minimize.Reduced := by
  have hq := quotientMap_minimize hd
  refine ⟨fun i => ?_, fun i => ?_, minimize_separate hd⟩
  · obtain ⟨s, hs⟩ := hq.surjective i
    exact hs ▸ hq.reachable (hreach s)
  · obtain ⟨s, hs⟩ := hq.surjective i
    exact hs ▸ hq.live (hlive s)

end Dfa

/-! ## §3. Labels that a word leads to. -/

namespace Nfa

variable {nfa : Nfa} {l l' : nfa.NodeSet} {a : Symbol}

theorem runFrom_append (nfa : Nfa) (l : nfa.NodeSet) (u v : Word) :
    nfa.runFrom l (u ++ v) = (nfa.runFrom l u).bind fun l' => nfa.runFrom l' v := by
  induction u generalizing l with
  | nil => rfl
  | cons b u ih =>
      rw [List.cons_append, runFrom_cons, runFrom_cons]
      cases (Symbol.ofByte? b).bind (nfa.successor l) with
      | none => rfl
      | some l' => exact ih l'

theorem runFrom_symbol (nfa : Nfa) (l : nfa.NodeSet) (a : Symbol) :
    nfa.runFrom l [a.toByte] = nfa.successor l a := by
  rw [runFrom_cons, Symbol.ofByte?_toByte, Option.bind_some]
  cases nfa.successor l a <;> rfl

/-- Some word leads from the initial label to the label. -/
def LabelReached (nfa : Nfa) (l : nfa.NodeSet) : Prop :=
  ∃ w : List Symbol, nfa.runFrom nfa.initial (w.map Symbol.toByte) = some l

theorem LabelReached.successor (h : nfa.LabelReached l) (hs : nfa.successor l a = some l') :
    nfa.LabelReached l' := by
  obtain ⟨w, hw⟩ := h
  refine ⟨w ++ [a], ?_⟩
  rw [List.map_append, runFrom_append, hw, Option.bind_some, List.map_singleton, runFrom_symbol, hs]

/-- What a label is like: closed, and not empty. -/
structure IsLabel (nfa : Nfa) (l : nfa.NodeSet) : Prop where
  /-- No run escapes without consuming something. -/
  closed : IsClosed l
  /-- It holds a node. -/
  nonempty : ∃ i : Fin nfa.size, l.contains i = true

theorem isLabel_initial (nfa : Nfa) : nfa.IsLabel nfa.initial :=
  ⟨isClosed_initial, nfa.start, contains_initial_iff.2 (.nil _)⟩

theorem isLabel_successor (hs : nfa.successor l a = some l') : nfa.IsLabel l' := by
  unfold Nfa.successor at hs
  rw [Option.map_eq_some_iff] at hs
  obtain ⟨m, hm, hl'⟩ := hs
  subst hl'
  refine ⟨isClosed_close m, ?_⟩
  -- a step that leads anywhere leads to some node
  have hne : ¬ ∀ i : Fin nfa.size, l.contains i = true →
      (nfa.node i).byteTarget? a.toByte = none := by
    intro hnone
    rw [step_eq_none_iff.2 hnone] at hm
    cases hm
  push Not at hne
  obtain ⟨i, hi, hij⟩ := hne
  obtain ⟨j, hj⟩ := Option.ne_none_iff_exists'.1 hij
  have hmj : m.contains j = true := (nfa.contains_of_step hm j).2 ⟨i, hi, hj⟩
  exact ⟨j, contains_close_iff.2 ⟨j, hmj, .nil j⟩⟩

/-- From a label, some word leads to a set with a terminal node, when every
node leads onward to one. -/
theorem IsLabel.exists_accepting (hl : nfa.IsLabel l) (hG : nfa.graph.ClassesInhabited)
    (hhalts : ∀ i, nfa.graph.Halts i) :
    ∃ (w : List Symbol) (t : nfa.NodeSet), nfa.runFrom l (w.map Symbol.toByte) = some t ∧
      nfa.isAccepting t = true := by
  obtain ⟨i, hi⟩ := hl.nonempty
  obtain ⟨j, n, hway, hn, hterm⟩ := hhalts i
  cases hn
  obtain ⟨w, hw⟩ := hway.exists_path hG
  obtain ⟨v, hv⟩ := Symbol.exists_map_toByte hw.toNat_lt
  obtain ⟨t, ht, hj⟩ := (contains_runFrom_iff hl.closed w).2 ⟨i, hi, hw⟩
  exact ⟨v, t, by rw [hv, ht], nfa.isAccepting_iff.2 ⟨j, hj, hterm⟩⟩

end Nfa

/-! ## §4. Exploration. -/

theorem nodup_eraseDups {α : Type} [BEq α] [LawfulBEq α] (l : List α) : l.eraseDups.Nodup := by
  match l with
  | [] => exact List.nodup_nil
  | x :: l =>
      have hlt : (l.filter fun y => !y == x).length < l.length + 1 :=
        Nat.lt_succ_of_le (List.length_filter_le _ l)
      rw [List.eraseDups_cons, List.nodup_cons]
      refine ⟨?_, nodup_eraseDups _⟩
      simp
termination_by l.length

namespace Exploration

variable {nfa : Nfa} {e : Exploration nfa} {label : nfa.NodeSet} {rest : List nfa.NodeSet}

/-- Every label that exploration knows is a label that a word leads to, and
none is found twice. -/
structure Sound (e : Exploration nfa) : Prop where
  /-- No label is found twice. -/
  nodup : e.found.Nodup
  /-- What is found is reached, and so is what waits. -/
  reached : ∀ l, l ∈ e.found ∨ l ∈ e.work → nfa.IsLabel l ∧ nfa.LabelReached l

theorem sound_start (nfa : Nfa) : (start nfa).Sound := by
  refine ⟨List.nodup_singleton _, ?_⟩
  intro l hl
  have hinit : l = nfa.initial := by simpa [start] using hl
  subst hinit
  exact ⟨nfa.isLabel_initial, [], rfl⟩

theorem mem_freshSuccessors {found : List nfa.NodeSet} {l : nfa.NodeSet}
    (h : l ∈ nfa.freshSuccessors found label) :
    l ∉ found ∧ ∃ a, nfa.successor label a = some l := by
  rw [Nfa.freshSuccessors, List.mem_eraseDups, List.mem_filter, decide_eq_true_eq] at h
  obtain ⟨a, _, ha⟩ := List.mem_filterMap.1 h.1
  exact ⟨h.2, a, ha⟩

theorem Sound.expand (h : e.Sound) (hwork : e.work = label :: rest) :
    (expand e.found rest label).Sound := by
  have hlabel := h.reached label (.inr (by rw [hwork]; exact List.mem_cons_self))
  refine ⟨?_, ?_⟩
  · refine List.nodup_append.2 ⟨h.nodup, nodup_eraseDups _, ?_⟩
    intro l hl l' hl' heq
    exact (mem_freshSuccessors hl').1 (heq ▸ hl)
  · have hfresh : ∀ l ∈ nfa.freshSuccessors e.found label, nfa.IsLabel l ∧ nfa.LabelReached l := by
      intro l hl
      obtain ⟨_, a, ha⟩ := mem_freshSuccessors hl
      exact ⟨Nfa.isLabel_successor ha, hlabel.2.successor ha⟩
    intro l hl
    rcases hl with hl | hl
    · rcases List.mem_append.1 hl with hl | hl
      · exact h.reached l (.inl hl)
      · exact hfresh l hl
    · rcases List.mem_append.1 hl with hl | hl
      · exact hfresh l (List.mem_reverse.1 hl)
      · exact h.reached l (.inr (by rw [hwork]; exact List.mem_cons_of_mem _ hl))

/-- **What a whole exploration finds.** -/
theorem Sound.run (h : e.Sound) :
    e.run.Nodup ∧ ∀ l ∈ e.run, nfa.IsLabel l ∧ nfa.LabelReached l := by
  fun_induction Exploration.run e with
  | case1 e _ => exact ⟨h.nodup, fun l hl => h.reached l (.inl hl)⟩
  | case2 e label rest hwork ih => exact ih (h.expand hwork)

end Exploration

/-! ## §5. The deterministic automaton. -/

namespace Nfa

variable (nfa : Nfa)

theorem labelOf_spec (s : Fin nfa.determinize.size) :
    nfa.IsLabel (nfa.labelOf s) ∧ nfa.LabelReached (nfa.labelOf s) := by
  rw [labelOf_eq_get]
  exact (Exploration.sound_start nfa).run.2 _ (List.get_mem nfa.labels s)

/-- Different states have different labels. -/
theorem labelOf_injective : Function.Injective nfa.labelOf := by
  intro s t hst
  rw [labelOf_eq_get, labelOf_eq_get] at hst
  exact List.nodup_iff_injective_get.1 (Exploration.sound_start nfa).run.1 hst

/-- **Every state is reached.** -/
theorem reachable_determinize (s : Fin nfa.determinize.size) : nfa.determinize.Reachable s := by
  obtain ⟨w, hw⟩ := (nfa.labelOf_spec s).2
  rw [← labelOf_start, ← map_labelOf_runFrom, Option.map_eq_some_iff] at hw
  obtain ⟨t, ht, hts⟩ := hw
  exact ⟨w, by rw [ht, nfa.labelOf_injective hts]⟩

/-- **Every state is live**, when every node leads onward to a terminal one. -/
theorem live_determinize (hG : nfa.graph.ClassesInhabited) (hhalts : ∀ i, nfa.graph.Halts i)
    (s : Fin nfa.determinize.size) : nfa.determinize.Live s := by
  obtain ⟨w, l, hw, hacc⟩ := (nfa.labelOf_spec s).1.exists_accepting hG hhalts
  rw [← map_labelOf_runFrom, Option.map_eq_some_iff] at hw
  obtain ⟨t, ht, htl⟩ := hw
  refine ⟨w, ?_⟩
  rw [Dfa.outcome, ht, Option.map_some, accepting_determinize, htl, hacc]

/-- **Determinizing and merging give a reduced automaton.** -/
theorem reduced_minimize_determinize (hG : nfa.graph.ClassesInhabited)
    (hhalts : ∀ i, nfa.graph.Halts i) : nfa.determinize.minimize.Reduced :=
  Dfa.reduced_minimize (Dfa.separate_determinize nfa) nfa.reachable_determinize
    (nfa.live_determinize hG hhalts)

end Nfa

end LineScan
