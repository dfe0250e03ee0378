/-
  LineScan.Proofs.Render.Graph
  ────────────────────────────
  **WHAT A GRAPH TELLS ABOUT ITS AUTOMATON.**

  The text of a graph is read back in four steps:

      text → lines        no line holds a line feed         (`graph_eq_iff_edgeLines`)
      lines → states      a line begins with the name of the state that it
                          leaves, and names are distinct    (`linesFrom_eq`)
      line → target       the name of the target ends at the next blank
      line → label        the rest of the line              (`Arrow.line_eq_iff`)

  What is left is how much of a set its label tells, and that is not all: see
  `SymbolSet.labelText_eq_iff`.  Two compiled automata have one graph exactly
  when, state by state, the same groups lead to the same targets in the same
  order, up to sets that a label does not tell apart (`graph_eq_iff`).
-/
import LineScan.Proofs.Compile.Minimal
import LineScan.Proofs.Render.Label
import LineScan.Proofs.StateName
import LineScan.Proofs.Text.Reading

namespace LineScan

/-! ## §1. Words and keys. -/

/-- What stands before the first blank. -/
def firstWord (cs : List Char) : List Char := cs.takeWhile (· ≠ ' ')

theorem firstWord_append {cs : List Char} (h : ' ' ∉ cs) (rest : List Char) :
    firstWord (cs ++ ' ' :: rest) = cs := by
  have hall : ∀ c ∈ cs, decide (c ≠ ' ') = true := by
    intro c hc
    rw [decide_eq_true_iff]
    rintro rfl
    exact h hc
  unfold firstWord
  rw [List.takeWhile_append_of_pos hall, List.takeWhile_cons_of_neg (by decide), List.append_nil]

/-- Entries that carry the key they were made from are found by it. -/
theorem filter_flatMap_key {α β κ : Type} [DecidableEq κ] {f : α → List β} {key : β → κ}
    {keyOf : α → κ} (hkeyOf : Function.Injective keyOf) (hkey : ∀ a, ∀ b ∈ f a, key b = keyOf a)
    {as : List α} (hnodup : as.Nodup) {a : α} (ha : a ∈ as) :
    (as.flatMap f).filter (fun b => decide (key b = keyOf a)) = f a := by
  have hself : (f a).filter (fun b => decide (key b = keyOf a)) = f a :=
    List.filter_eq_self.2 fun b hb => decide_eq_true (hkey a b hb)
  have hother : ∀ c, c ≠ a → (f c).filter (fun b => decide (key b = keyOf a)) = [] := by
    intro c hc
    refine List.filter_eq_nil_iff.2 fun b hb => ?_
    rw [decide_eq_true_iff, hkey c b hb]
    exact fun heq => hc (hkeyOf heq)
  rw [List.filter_flatMap]
  induction as with
  | nil => cases ha
  | cons c as ih =>
      rw [List.nodup_cons] at hnodup
      rw [List.flatMap_cons]
      by_cases hc : c = a
      · -- no other entry has this key
        subst hc
        have hrest : as.flatMap (fun x => (f x).filter fun b => decide (key b = keyOf c)) = [] :=
          List.flatMap_eq_nil_iff.2 fun x hx => hother x fun hxc => hnodup.1 (hxc ▸ hx)
        rw [hself, hrest, List.append_nil]
      · rw [hother c hc, List.nil_append]
        exact ih hnodup.2 ((List.mem_cons.1 ha).resolve_left (Ne.symm hc))

/-! ## §2. Lines of a graph. -/

/-- A group of transitions, with its target as a plain number. -/
structure Arrow where
  /-- The number of the state that the group leads to. -/
  target : Nat
  /-- The symbols of the group. -/
  symbols : SymbolSet

namespace Arrow

/-- The line of an arrow that leaves the state with this number. -/
def line (source : Nat) (a : Arrow) : String :=
  stateName source ++ " -> " ++ stateName a.target ++ " [ label = \"'" ++ a.symbols.labelText ++
    "'\" ]"

/-- **One target, and sets that a label does not tell apart.** -/
def Alike (a b : Arrow) : Prop := a.target = b.target ∧ a.symbols.Alike b.symbols

variable {a b : Arrow} {source : Nat}

theorem not_mem_stateName {c : Char} (h : c.toNat < 65) (i : Nat) : c ∉ (stateName i).toList := by
  intro hc
  have hletter := isNameLetter_iff.1 (isNameLetter_of_mem_stateName hc)
  omega

theorem not_mem_labelText (S : SymbolSet) : '\n' ∉ S.labelText.toList := by
  have hforms : ∀ s : Symbol, '\n' ∉ s.labelText.toList := by decide +kernel
  rw [SymbolSet.labelText, String.toList_join, List.flatMap_map, List.mem_flatMap]
  rintro ⟨s, _, hs⟩
  exact hforms s hs

theorem not_mem_line (source : Nat) (a : Arrow) : '\n' ∉ (a.line source).toList := by
  unfold line
  simp only [String.toList_append, List.mem_append]
  rintro (((((h | h) | h) | h) | h) | h)
  · exact not_mem_stateName (by decide) _ h
  · revert h
    decide
  · exact not_mem_stateName (by decide) _ h
  · revert h
    decide
  · exact not_mem_labelText _ h
  · revert h
    decide

theorem firstWord_line (source : Nat) (a : Arrow) :
    firstWord (a.line source).toList = (stateName source).toList := by
  unfold line
  simp only [String.toList_append, List.append_assoc]
  exact firstWord_append (not_mem_stateName (by decide) source) _

/-- **A line tells the target of its arrow and the label**, and no more. -/
theorem line_eq_iff : a.line source = b.line source ↔ a.Alike b := by
  unfold Alike
  rw [← SymbolSet.labelText_eq_iff]
  constructor
  · intro h
    have hlists := congrArg String.toList h
    unfold line at hlists
    simp only [String.toList_append, List.append_assoc, List.append_cancel_left_eq] at hlists
    -- the name of the target ends at the blank behind it
    have hword : ∀ (i : Nat) (rest : List Char),
        firstWord ((stateName i).toList ++ (" [ label = \"'".toList ++ rest)) =
          (stateName i).toList :=
      fun i rest => firstWord_append (not_mem_stateName (by decide) i) _
    have hname := congrArg firstWord hlists
    rw [hword, hword] at hname
    rw [hname, List.append_cancel_left_eq, List.append_cancel_left_eq] at hlists
    have hlabel := List.append_cancel_right hlists
    exact ⟨stateName_injective (String.toList_inj.1 hname), String.toList_inj.1 hlabel⟩
  · rintro ⟨htarget, hlabel⟩
    rw [line, line, htarget, hlabel]

end Arrow

/-! ## §3. Arrows of an automaton. -/

namespace Dfa

/-- The arrows that leave the state with this number, in order; none if there
is no such state. -/
def arrowsFrom (d : Dfa) (i : Nat) : List Arrow :=
  if h : i < d.size then (d.state ⟨i, h⟩).transitions.map fun t => ⟨t.target.val, t.symbols⟩
  else []

/-- The number of the state that a byte leads to from the state with this
number, if there is one and the byte leads on. -/
def leadsFrom (d : Dfa) (i : Nat) (b : UInt8) : Option Nat :=
  if h : i < d.size then (d.next ⟨i, h⟩ b).map Fin.val else none

variable {c d : Dfa}

theorem leadsFrom_eq (d : Dfa) (i : Nat) (b : UInt8) :
    d.leadsFrom i b =
      ((d.arrowsFrom i).find? fun a => a.symbols.contains b.toNat).map Arrow.target := by
  unfold leadsFrom arrowsFrom
  by_cases h : i < d.size
  · rw [dif_pos h, dif_pos h, List.find?_map, Option.map_map]
    unfold next State.target? Transitions.target?
    rw [Option.map_map]
    rfl
  · rw [dif_neg h, dif_neg h]
    rfl

/-- The lines of the arrows that leave the state with this number. -/
def linesFrom (d : Dfa) (i : Nat) : List String := (d.arrowsFrom i).map (Arrow.line i)

theorem linesFrom_state (hd : d.WellFormed) (s : Fin d.size) :
    (d.state s).transitions.map (d.edgeLine (d.state s)) = d.linesFrom s.val := by
  unfold linesFrom arrowsFrom
  rw [dif_pos s.isLt, List.map_map]
  refine List.map_congr_left fun t _ => ?_
  show d.edgeLine (d.state s) t = _
  unfold edgeLine State.name
  rw [hd.id_eq, hd.id_eq]
  rfl

/-- **The lines of a graph**, state by state; numbers that no state has add
nothing. -/
theorem edgeLines_eq (hd : d.WellFormed) {n : Nat} (hn : d.size ≤ n) :
    d.edgeLines = (List.range n).flatMap d.linesFrom := by
  have hbehind : ∀ i, d.linesFrom (d.size + i) = [] := by
    intro i
    unfold linesFrom arrowsFrom
    rw [dif_neg (by omega)]
    rfl
  -- the first numbers are those of the states, no state has the others
  obtain ⟨k, rfl⟩ := Nat.exists_eq_add_of_le hn
  rw [List.range_add, List.flatMap_append, List.flatMap_map,
    List.flatMap_eq_nil_iff.2 fun i _ => hbehind i, List.append_nil, edgeLines, d.toList_states,
    List.flatMap_map, ← List.map_coe_finRange_eq_range, List.flatMap_map]
  exact List.flatMap_congr fun s _ => linesFrom_state hd s

/-- **The lines of a state** are those that begin with its name. -/
theorem linesFrom_eq (hd : d.WellFormed) {n i : Nat} (hn : d.size ≤ n) (hi : i < n) :
    d.linesFrom i =
      d.edgeLines.filter fun l => decide (firstWord l.toList = (stateName i).toList) := by
  have hinj : Function.Injective fun j => (stateName j).toList :=
    fun _ _ h => stateName_injective (String.toList_inj.1 h)
  have hkey : ∀ j, ∀ l ∈ d.linesFrom j, firstWord l.toList = (stateName j).toList := by
    intro j l hl
    obtain ⟨a, _, rfl⟩ := List.mem_map.1 hl
    exact Arrow.firstWord_line j a
  rw [edgeLines_eq hd hn]
  exact (filter_flatMap_key hinj hkey List.nodup_range (List.mem_range.2 hi)).symm

theorem not_mem_edgeLines (hd : d.WellFormed) : ∀ line ∈ d.edgeLines, '\n' ∉ line.toList := by
  rw [edgeLines_eq hd (Nat.le_refl _)]
  intro line hline
  obtain ⟨i, _, hi⟩ := List.mem_flatMap.1 hline
  obtain ⟨a, _, rfl⟩ := List.mem_map.1 hi
  exact Arrow.not_mem_line i a

/-- Under one name, graphs differ in the lines of their edges only. -/
theorem graph_eq_iff_edgeLines (hc : c.WellFormed) (hd : d.WellFormed) (name : String) :
    c.graph name = d.graph name ↔ c.edgeLines = d.edgeLines := by
  unfold graph
  simp only [unlines_append]
  constructor
  · intro h
    have hlists := congrArg String.toList h
    simp only [String.toList_append, List.append_assoc, List.append_cancel_left_eq] at hlists
    have htext := String.toList_inj.1 (List.append_cancel_right hlists)
    exact unlines_inj (not_mem_edgeLines hc) (not_mem_edgeLines hd) htext
  · intro h
    rw [h]

/-- **One graph, the same arrows**, up to sets that a label does not tell
apart. -/
theorem WellFormed.graph_eq_iff_arrows (hc : c.WellFormed) (hd : d.WellFormed) (name : String) :
    c.graph name = d.graph name ↔
      ∀ i, List.Forall₂ Arrow.Alike (c.arrowsFrom i) (d.arrowsFrom i) := by
  have hlines : ∀ i, c.linesFrom i = d.linesFrom i ↔
      List.Forall₂ Arrow.Alike (c.arrowsFrom i) (d.arrowsFrom i) := by
    intro i
    unfold linesFrom
    rw [← List.forall₂_eq_eq_eq, List.forall₂_map_left_iff, List.forall₂_map_right_iff]
    simp only [Arrow.line_eq_iff]
  rw [graph_eq_iff_edgeLines hc hd]
  constructor
  · intro h i
    -- far enough for both automata and for the number in question
    have hi : i < max (max c.size d.size) (i + 1) := by omega
    rw [← hlines, linesFrom_eq hc (by omega) hi, linesFrom_eq hd (by omega) hi, h]
  · intro h
    rw [edgeLines_eq hc (Nat.le_max_left c.size d.size),
      edgeLines_eq hd (Nat.le_max_right c.size d.size)]
    exact List.flatMap_congr fun i _ => (hlines i).2 (h i)

theorem leadsFrom_eq_of_alike {i : Nat}
    (h : List.Forall₂ Arrow.Alike (c.arrowsFrom i) (d.arrowsFrom i)) {b : UInt8}
    (h31 : b ≠ 0x1F) (h94 : b ≠ 0x5E) (h95 : b ≠ 0x5F) : c.leadsFrom i b = d.leadsFrom i b := by
  have hne : ∀ k : UInt8, b ≠ k → b.toNat ≠ k.toNat := fun k hk heq => hk (UInt8.toNat_inj.1 heq)
  rw [leadsFrom_eq, leadsFrom_eq]
  generalize c.arrowsFrom i = as, d.arrowsFrom i = as' at h
  -- the first group that holds the byte is at the same place on both sides
  induction h with
  | nil => rfl
  | @cons a a' _ _ halike _ ih =>
      have hcontains := halike.2.contains_eq (hne _ h31) (hne _ h94) (hne _ h95)
      rw [List.find?_cons, List.find?_cons, ← hcontains]
      cases a.symbols.contains b.toNat with
      | true => exact congrArg some halike.1
      | false => exact ih

end Dfa

/-! ## §4. Compiled automata. -/

/-- **What the graph of a compiled automaton determines.**  Two of them have
one graph under a name exactly when, from every state, the same groups lead to
the same targets in the same order, up to sets that a label does not tell
apart.  On every byte but `0x1F`, the caret and the underscore, one graph then
means one target.  Two groups have one label exactly when their sets are equal
or not told apart so. -/
theorem graph_eq_iff {p q : String} {c d : Dfa} (hc : compile p = .ok c) (hd : compile q = .ok d)
    (name : String) :
    (c.graph name = d.graph name ↔
        ∀ i, List.Forall₂ Arrow.Alike (c.arrowsFrom i) (d.arrowsFrom i)) ∧
      (c.graph name = d.graph name → ∀ i b, b ≠ 0x1F → b ≠ 0x5E → b ≠ 0x5F →
        c.leadsFrom i b = d.leadsFrom i b) ∧
      ∀ {m n : Nat} (t : Transition m) (u : Transition n),
        t.labelText = u.labelText ↔ t.symbols.Alike u.symbols := by
  have hiff := (wellFormed_of_compile hc).graph_eq_iff_arrows (wellFormed_of_compile hd) name
  refine ⟨hiff, ?_, ?_⟩
  · intro h i b h31 h94 h95
    exact Dfa.leadsFrom_eq_of_alike (hiff.1 h i) h31 h94 h95
  · intro m n t u
    rw [t.labelText_eq, u.labelText_eq, SymbolSet.labelText_eq_iff]

/-- A control symbol, and the two symbols it is written with: two patterns
with one graph. -/
theorem graph_confused :
    ∃ c d, compile "\x1f" = .ok c ∧ compile "[_^]" = .ok d ∧ c.graph "g" = d.graph "g" ∧
      c.leadsFrom 0 0x1F ≠ d.leadsFrom 0 0x1F := by
  have hcheck : (compile "\x1f").toOption.any (fun c =>
      (compile "[_^]").toOption.any fun d => decide (c.graph "g" = d.graph "g") &&
        decide (c.leadsFrom 0 0x1F ≠ d.leadsFrom 0 0x1F)) = true := by
    rw [toOption_compile, toOption_compile]
    decide +kernel
  obtain ⟨c, hc, hrest⟩ := exists_of_compile_any hcheck
  obtain ⟨d, hd, hboth⟩ := exists_of_compile_any hrest
  obtain ⟨hgraph, hleads⟩ := Bool.and_eq_true_iff.1 hboth
  exact ⟨c, d, hc, hd, of_decide_eq_true hgraph, of_decide_eq_true hleads⟩

/-- **Transitions are not determined on every byte.** -/
theorem not_graph_determines :
    ¬ ∀ {p q : String} {c d : Dfa} (name : String), compile p = .ok c → compile q = .ok d →
      c.graph name = d.graph name → ∀ i b, c.leadsFrom i b = d.leadsFrom i b := by
  intro h
  obtain ⟨c, d, hc, hd, hgraph, hleads⟩ := graph_confused
  exact hleads (h "g" hc hd hgraph 0 0x1F)

/-- The groups of two automata with one graph, one by one. -/
theorem graph_eq_iff_confused :
    ∃ c d, compile "\x1f" = .ok c ∧ compile "[_^]" = .ok d ∧ c.graph "g" = d.graph "g" ∧
      (∀ i, List.Forall₂ Arrow.Alike (c.arrowsFrom i) (d.arrowsFrom i)) ∧
      c.leadsFrom 0 0x60 = d.leadsFrom 0 0x60 := by
  obtain ⟨c, d, hc, hd, hgraph, _⟩ := graph_confused
  have h := graph_eq_iff hc hd "g"
  exact ⟨c, d, hc, hd, hgraph, h.1.1 hgraph, h.2.1 hgraph 0 0x60 (by decide) (by decide) (by decide)⟩

end LineScan
