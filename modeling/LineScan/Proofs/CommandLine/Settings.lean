/-
  LineScan.Proofs.CommandLine.Settings
  ────────────────────────────────────
  **WHAT THE OPTIONS ASK FOR.**

  `settings` lists the options among arguments, each with the text given to it,
  and acts on none of them.  What a run is asked to do is read off that list:

      --emit          the names of what is printed, all texts put together
      --format        `c`, unless it is given
      --name          `Yy_nxt`, unless it is given
      --threshold     4, unless it is given
      --no-minimize   states are merged, unless it is given
      --numeric       symbols are written as numbers if it is given

  A draft agrees with the settings it was made of (`Draft.Agrees`): the empty
  draft agrees with none, and an option that is acted on adds the one it
  stands for.  So the draft of a run agrees with all settings among its
  arguments (`Draft.exists_agrees_read`).
-/
import LineScan.Proofs.CommandLine.Arguments

namespace LineScan.CommandLine

/-! ## §1. Settings. -/

/-- An option with the text given to it; a flag has the empty one. -/
structure Setting where
  /-- The option. -/
  option : OptionName
  /-- The text. -/
  text : String
deriving DecidableEq

/-- What an option sets without waiting for its value. -/
def settled : Option OptionName → Option String → List Setting
  | none, _ => []
  | some (.valued _), none => []
  | some option, text => [⟨option, text.getD ""⟩]

/-- What an argument sets without waiting for a value. -/
def Argument.sets : Argument → List Setting
  | .long name text => settled (OptionName.ofLong? name) text
  | .short letter text => settled (OptionName.ofShort? letter) text
  | .separator | .plain _ => []

/-- **The settings among arguments**, in order; `pending` is an option that
waits for its value. -/
def settings : Option Valued → List String → List Setting
  | _, [] => []
  | some o, text :: rest => ⟨.valued o, text⟩ :: settings none rest
  | none, arg :: rest =>
      match Argument.ofString arg with
      | .plain _ => settings none rest
      | .separator => []
      | argument => argument.sets ++ settings argument.awaits rest

theorem Argument.Names.settings_cons {arg : String} {long : Bool} {option : Option OptionName}
    {text : Option String} (h : (Argument.ofString arg).Names long option text)
    (rest : List String) :
    settings none (arg :: rest) = settled option text ++ settings (awaited option text) rest := by
  rw [settings]
  generalize Argument.ofString arg = argument at h
  cases h <;> rfl

/-- The texts given to an option, in order. -/
def textsOf (option : OptionName) (ss : List Setting) : List String :=
  (ss.filter (·.option = option)).map (·.text)

/-- **The names of what is printed**: those given to `--emit`, with commas
between them, or the graph and the table. -/
def emitted (ss : List Setting) : List String :=
  match textsOf (.valued .emit) ss with
  | [] => ["graph", "table"]
  | texts => texts.flatMap commaPieces

/-- **What settings ask for**, apart from what is printed. -/
structure Asked (ss : List Setting) (o : Options) : Prop where
  /-- The format is the one of the name that is given, or that of C. -/
  format : textsOf (.valued .format) ss = [] ∧ o.format = .c ∨
    textsOf (.valued .format) ss = ["c"] ∧ o.format = .c ∨
    textsOf (.valued .format) ss = ["rust"] ∧ o.format = .rust
  /-- The name of the tables is the one that is given, or the usual one. -/
  name : textsOf (.valued .name) ss = [] ∧ o.name = "Yy_nxt" ∨
    textsOf (.valued .name) ss = [o.name]
  /-- The threshold is the count that is given, or 4. -/
  threshold : textsOf (.valued .threshold) ss = [] ∧ o.threshold = 4 ∨
    ∃ text, textsOf (.valued .threshold) ss = [text] ∧ countOf? text = some o.threshold
  /-- States are merged if nothing forbids it. -/
  minimize : o.minimize = true ↔ ∀ s ∈ ss, s.option ≠ .noMinimize
  /-- Symbols are written as numbers if that is asked for. -/
  numeric : o.numeric = true ↔ ∃ s ∈ ss, s.option = .numeric

/-! ## §2. What settings say about one option. -/

/-- What `--emit` has said about the parts: nothing, or that all the names lead
to these. -/
structure Listed (ss : List Setting) (parts : Option (List Part)) : Prop where
  /-- Nothing is said without a text. -/
  unsaid : parts = none ↔ textsOf (.valued .emit) ss = []
  /-- All names are names of parts. -/
  named : ((textsOf (.valued .emit) ss).flatMap commaPieces).mapM Part.ofName? =
    some (parts.getD [])

/-- The text given to an option is read as a value; there is at most one. -/
def Given {α : Type} (ss : List Setting) (o : Valued) (read : String → Option α)
    (value : Option α) : Prop :=
  (textsOf (.valued o) ss).mapM read = some value.toList

/-- A flag is set if it was given. -/
def Flagged (ss : List Setting) (flag : OptionName) (b : Bool) : Prop :=
  b = true ↔ ∃ s ∈ ss, s.option = flag

section

variable {α : Type} {ss : List Setting} {s : Setting} {o : Valued} {text : String}
  {parts : Option (List Part)} {read : String → Option α} {before after : Option α}
  {flag : OptionName} {b : Bool}

theorem textsOf_concat_of_ne {option : OptionName} (h : s.option ≠ option) :
    textsOf option (ss ++ [s]) = textsOf option ss := by
  simp [textsOf, h]

theorem textsOf_concat_self (option : OptionName) :
    textsOf option (ss ++ [⟨option, text⟩]) = textsOf option ss ++ [text] := by
  simp [textsOf]

/-- Other settings say nothing about the parts. -/
theorem Listed.concat_of_ne (h : Listed ss parts) (hs : s.option ≠ .valued .emit) :
    Listed (ss ++ [s]) parts where
  unsaid := by rw [textsOf_concat_of_ne hs, h.unsaid]
  named := by rw [textsOf_concat_of_ne hs, h.named]

/-- Names add to those before them. -/
theorem Listed.concat (h : Listed ss parts) {more : List Part}
    (hmore : (commaPieces text).mapM Part.ofName? = some more) :
    Listed (ss ++ [⟨.valued .emit, text⟩]) (some (parts.getD [] ++ more)) where
  unsaid := by simp [textsOf_concat_self]
  named := by simp [textsOf_concat_self, List.mapM_append, h.named, hmore]

/-- Other settings say nothing about an option. -/
theorem Given.concat_of_ne (h : Given ss o read before) (hs : s.option ≠ .valued o) :
    Given (ss ++ [s]) o read before := by
  rw [Given, textsOf_concat_of_ne hs]
  exact h

/-- An option is given once. -/
theorem Given.concat (h : Given ss o read before)
    (honce : Draft.once before (read text) = some after) :
    Given (ss ++ [⟨.valued o, text⟩]) o read after := by
  cases before with
  | some _ => cases honce
  | none =>
      cases hread : read text with
      | none =>
          rw [hread] at honce
          cases honce
      | some v =>
          rw [hread] at honce
          cases honce
          rw [Given] at h ⊢
          simp [textsOf_concat_self, List.mapM_append, h, hread]

/-- Other settings set no flag. -/
theorem Flagged.concat_of_ne (h : Flagged ss flag b) (hs : s.option ≠ flag) :
    Flagged (ss ++ [s]) flag b := by
  simpa [Flagged, hs] using h

theorem Flagged.concat (ss : List Setting) (flag : OptionName) (text : String) :
    Flagged (ss ++ [⟨flag, text⟩]) flag true := by
  simp [Flagged]

theorem mapM_eq_some_nil {texts : List String} (h : texts.mapM read = some []) : texts = [] := by
  cases texts with
  | nil => rfl
  | cons text texts =>
      rw [List.mapM_cons] at h
      obtain ⟨_, _, h⟩ := Option.bind_eq_some_iff.1 h
      obtain ⟨_, _, h⟩ := Option.bind_eq_some_iff.1 h
      cases h

/-- The value of an option is read from the text given to it, or the default
one. -/
theorem Given.cases (h : Given ss o read before) (default : α) :
    textsOf (.valued o) ss = [] ∧ before.getD default = default ∨
      ∃ text, textsOf (.valued o) ss = [text] ∧ read text = some (before.getD default) := by
  rw [Given] at h
  cases before with
  | none => exact .inl ⟨mapM_eq_some_nil h, rfl⟩
  | some v =>
      cases htexts : textsOf (.valued o) ss with
      | nil =>
          rw [htexts] at h
          cases h
      | cons text texts =>
          rw [htexts, List.mapM_cons] at h
          obtain ⟨w, hw, h⟩ := Option.bind_eq_some_iff.1 h
          obtain ⟨ws, hws, h⟩ := Option.bind_eq_some_iff.1 h
          cases h
          exact .inr ⟨text, by rw [mapM_eq_some_nil hws], hw⟩

end

/-! ## §3. Drafts and settings. -/

/-- **A draft that settings lead to.** -/
structure Draft.Agrees (d : Draft) (ss : List Setting) : Prop where
  /-- The parts are those of the names. -/
  parts : Listed ss d.parts
  /-- The format is the one that was given. -/
  format : Given ss .format formatOfName? d.format
  /-- So is the name of the tables. -/
  name : Given ss .name some d.name
  /-- So is the threshold. -/
  threshold : Given ss .threshold countOf? d.threshold
  /-- The flag against merging is set if it was given. -/
  noMinimize : Flagged ss .noMinimize d.noMinimize
  /-- So is the one for numbers. -/
  numeric : Flagged ss .numeric d.numeric

namespace Draft

theorem agrees_empty : empty.Agrees [] where
  parts := ⟨iff_of_true rfl rfl, rfl⟩
  format := rfl
  name := rfl
  threshold := rfl
  noMinimize := by simp [Flagged, empty]
  numeric := by simp [Flagged, empty]

namespace Agrees

variable {d d' : Draft} {ss : List Setting} {o : Options} {text : String}

/-- Patterns are no settings. -/
theorem withPatterns (h : d.Agrees ss) (ps : List String) : (d.withPatterns ps).Agrees ss :=
  ⟨h.parts, h.format, h.name, h.threshold, h.noMinimize, h.numeric⟩

/-- **An option that is given a value** adds a setting. -/
theorem give {o : Valued} (h : d.Agrees ss) (hgive : d.give o text = some d') :
    d'.Agrees (ss ++ [⟨.valued o, text⟩]) := by
  cases o with
  | emit =>
      obtain ⟨parts, hparts, hd'⟩ := Option.bind_eq_some_iff.1 hgive
      cases hd'
      exact ⟨h.parts.concat hparts, h.format.concat_of_ne nofun, h.name.concat_of_ne nofun,
        h.threshold.concat_of_ne nofun, h.noMinimize.concat_of_ne nofun,
        h.numeric.concat_of_ne nofun⟩
  | format =>
      obtain ⟨format, honce, rfl⟩ := Option.map_eq_some_iff.1 hgive
      exact ⟨h.parts.concat_of_ne nofun, h.format.concat honce, h.name.concat_of_ne nofun,
        h.threshold.concat_of_ne nofun, h.noMinimize.concat_of_ne nofun,
        h.numeric.concat_of_ne nofun⟩
  | name =>
      obtain ⟨name, honce, rfl⟩ := Option.map_eq_some_iff.1 hgive
      exact ⟨h.parts.concat_of_ne nofun, h.format.concat_of_ne nofun, h.name.concat honce,
        h.threshold.concat_of_ne nofun, h.noMinimize.concat_of_ne nofun,
        h.numeric.concat_of_ne nofun⟩
  | threshold =>
      obtain ⟨threshold, honce, rfl⟩ := Option.map_eq_some_iff.1 hgive
      exact ⟨h.parts.concat_of_ne nofun, h.format.concat_of_ne nofun,
        h.name.concat_of_ne nofun, h.threshold.concat honce, h.noMinimize.concat_of_ne nofun,
        h.numeric.concat_of_ne nofun⟩

/-- **A flag that is set** adds a setting. -/
theorem setFlag {flag : OptionName} (h : d.Agrees ss) (hset : d.setFlag flag = some d') :
    d'.Agrees (ss ++ [⟨flag, text⟩]) := by
  cases flag with
  | noMinimize =>
      obtain ⟨_, hd'⟩ := Option.ite_none_left_eq_some.1 hset
      cases hd'
      exact ⟨h.parts.concat_of_ne nofun, h.format.concat_of_ne nofun,
        h.name.concat_of_ne nofun, h.threshold.concat_of_ne nofun, Flagged.concat ..,
        h.numeric.concat_of_ne nofun⟩
  | numeric =>
      obtain ⟨_, hd'⟩ := Option.ite_none_left_eq_some.1 hset
      cases hd'
      exact ⟨h.parts.concat_of_ne nofun, h.format.concat_of_ne nofun,
        h.name.concat_of_ne nofun, h.threshold.concat_of_ne nofun,
        h.noMinimize.concat_of_ne nofun, Flagged.concat ..⟩
  | valued o => cases hset
  | help => cases hset

theorem eq_of_formatOfName {format : TableFormat} (h : formatOfName? text = some format) :
    text = "c" ∧ format = .c ∨ text = "rust" ∧ format = .rust := by
  unfold formatOfName? at h
  split at h <;> cases h
  · exact .inl ⟨rfl, rfl⟩
  · exact .inr ⟨rfl, rfl⟩

/-- **What settings ask for** are the options of the draft they lead to. -/
theorem asked (h : d.Agrees ss) : Asked ss d.options where
  format := by
    rcases h.format.cases .c with h | ⟨text, htexts, hread⟩
    · exact .inl h
    · rcases eq_of_formatOfName hread with ⟨rfl, hformat⟩ | ⟨rfl, hformat⟩
      · exact .inr (.inl ⟨htexts, hformat⟩)
      · exact .inr (.inr ⟨htexts, hformat⟩)
  name := by
    rcases h.name.cases "Yy_nxt" with h | ⟨text, htexts, hread⟩
    · exact .inl h
    · cases hread
      exact .inr htexts
  threshold := h.threshold.cases 4
  minimize := by
    have hflag : d.noMinimize = true ↔ _ := h.noMinimize
    show (!d.noMinimize) = true ↔ _
    rw [Bool.not_eq_true', ← Bool.not_eq_true, hflag]
    simp only [not_exists, not_and, ne_eq]
  numeric := h.numeric

/-- **The names of what is printed** are those of the parts. -/
theorem named (h : d.Agrees ss) : (emitted ss).mapM Part.ofName? = some d.options.parts := by
  unfold emitted
  split
  case h_1 hnone =>
    have hparts : d.options.parts = [.graph, .table] := by
      show d.parts.getD _ = _
      rw [h.parts.unsaid.2 hnone]
      rfl
    rw [hparts]
    rfl
  case h_2 hsome =>
    cases hparts : d.parts with
    | none => exact absurd (h.parts.unsaid.1 hparts) hsome
    | some parts =>
        have hoptions : d.options.parts = parts := by
          show d.parts.getD _ = _
          rw [hparts]
          rfl
        rw [hoptions, h.parts.named, hparts]
        rfl

end Agrees

/-! ## §4. Reading. -/

theorem Step.ofDraft?_eq_next {draft : Option Draft} {d : Draft} {pending : Option Valued}
    (h : Step.ofDraft? draft = .next d pending) : draft = some d := by
  cases draft with
  | none => cases h
  | some d => cases h; rfl

variable {d d' : Draft} {ss : List Setting} {long : Bool} {option : Option OptionName}
  {text : Option String} {pending : Option Valued} {o : Options} {patterns : List String}

/-- **An option that is acted on** adds what it sets. -/
theorem Agrees.takeOption (h : d.Agrees ss)
    (hnext : d.takeOption long option text = .next d' pending) :
    d'.Agrees (ss ++ settled option text) := by
  match option, text with
  | none, _ => cases hnext
  | some (.valued o), none =>
      cases hnext
      rwa [settled, List.append_nil]
  | some (.valued o), some text => exact h.give (Step.ofDraft?_eq_next hnext)
  | some .noMinimize, none => exact h.setFlag (Step.ofDraft?_eq_next hnext)
  | some .numeric, none => exact h.setFlag (Step.ofDraft?_eq_next hnext)
  | some .noMinimize, some _ => cases hnext
  | some .numeric, some _ => cases hnext
  | some .help, _ => cases hnext

/-- **The draft of a run agrees with the settings among its arguments.** -/
theorem exists_agrees_read {args : List String} {pending : Option Valued} {d : Draft}
    {ss : List Setting} (hd : d.Agrees ss) (h : d.read pending args = .run o patterns) :
    ∃ d' : Draft, d'.Agrees (ss ++ settings pending args) ∧ d'.options = o := by
  revert ss
  refine read_induction (motive := fun pending args d => ∀ {ss}, d.Agrees ss →
    ∃ d' : Draft, d'.Agrees (ss ++ settings pending args) ∧ d'.options = o)
    ?done ?separator ?pattern ?value ?option args pending d h
  case done =>
    intro d ho ss hd
    exact ⟨d, by rwa [settings, List.append_nil], ho⟩
  case separator =>
    intro arg rest d harg ho ss hd
    simp only [settings, harg, List.append_nil]
    exact ⟨d, hd, ho⟩
  case pattern =>
    intro arg rest d harg ih ss hd
    simp only [settings, harg]
    exact ih (hd.withPatterns _)
  case value =>
    intro waiting arg rest d d' _ hgive ih ss hd
    rw [settings, List.append_cons]
    exact ih (hd.give hgive)
  case option =>
    intro arg rest d d' long option text hnames hnext ih ss hd
    rw [hnames.settings_cons, ← List.append_assoc]
    exact ih (hd.takeOption hnext)

end Draft

/-- **The options of a run are those that the settings among its arguments ask
for**, and so are the parts it prints. -/
theorem asked_of_requestOf {args : List String} {o : Options} {patterns : List String}
    (h : requestOf args = .run o patterns) :
    Asked (settings none args) o ∧
      (emitted (settings none args)).mapM Part.ofName? = some o.parts := by
  obtain ⟨d, hd, rfl⟩ := Draft.exists_agrees_read Draft.agrees_empty h
  exact ⟨hd.asked, hd.named⟩

-- a value behind an equals sign adds to the others, and behind `--` nothing is said
example : emitted (settings none ["a", "-e", "pairs,nfa", "--emit=pairs", "--", "-etable"]) =
    ["pairs", "nfa", "pairs"] := by
  decide +kernel

end LineScan.CommandLine
