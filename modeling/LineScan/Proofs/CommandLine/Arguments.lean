/-
  LineScan.Proofs.CommandLine.Arguments
  ─────────────────────────────────────
  **OPTIONS AND PATTERNS DO NOT MEET.**

  Options and patterns may stand in any order.  `optionArguments` picks the
  options, with their values, from a list of arguments; it does so without
  acting on any of them.  What it picks asks for the same options, whatever
  patterns are put behind it:

      arguments                    asks for   options, patterns
      options among them, -- , qs  asks for   options, qs

  The reason is that a draft gains patterns and options independently
  (`Draft.takeOption_cases`), so the two readings go through the same drafts
  up to their patterns (`Draft.read_optionArguments`).  What a reading goes
  through is said once, as an induction (`Draft.read_induction`).
-/
import LineScan.CommandLine

namespace LineScan.CommandLine

/-! ## §1. The options among arguments. -/

/-- The option that waits for its value behind its name. -/
def awaited : Option OptionName → Option String → Option Valued
  | some (.valued o), none => some o
  | _, _ => none

/-- The option that waits for its value behind an argument. -/
def Argument.awaits : Argument → Option Valued
  | .long name value => awaited (OptionName.ofLong? name) value
  | .short letter value => awaited (OptionName.ofShort? letter) value
  | .separator | .plain _ => none

/-- **The arguments that are options or their values**, in order; `pending` is
an option that waits for its value. -/
def optionArguments : Option Valued → List String → List String
  | _, [] => []
  | some _, value :: rest => value :: optionArguments none rest
  | none, arg :: rest =>
      match Argument.ofString arg with
      | .plain _ => optionArguments none rest
      | .separator => []
      | argument => arg :: optionArguments argument.awaits rest

namespace Argument

variable {argument : Argument} {long : Bool} {option : Option OptionName} {text : Option String}

/-- **An argument names an option**, perhaps with a text of its own. -/
inductive Names : Argument → Bool → Option OptionName → Option String → Prop where
  /-- By its long name. -/
  | long (name : String) (text : Option String) :
      Names (.long name text) true (OptionName.ofLong? name) text
  /-- By its letter. -/
  | short (letter : Char) (text : Option String) :
      Names (.short letter text) false (OptionName.ofShort? letter) text

/-- Other arguments are the separator and plain texts. -/
theorem cases_names (argument : Argument) :
    argument = .separator ∨ (∃ text, argument = .plain text) ∨
      ∃ long option text, argument.Names long option text := by
  cases argument with
  | separator => exact .inl rfl
  | plain text => exact .inr (.inl ⟨text, rfl⟩)
  | long name text => exact .inr (.inr ⟨_, _, _, .long name text⟩)
  | short letter text => exact .inr (.inr ⟨_, _, _, .short letter text⟩)

/-- A plain text is the whole argument. -/
theorem eq_of_ofString_plain {arg text : String} (h : ofString arg = .plain text) :
    text = arg := by
  unfold ofString at h
  split at h
  case h_2 => split at h <;> cases h
  all_goals cases h
  rfl

theorem Names.take (h : argument.Names long option text) (d : Draft) :
    d.take none argument = d.takeOption long option text := by
  cases h <;> rfl

theorem Names.optionArguments_cons {arg : String}
    (h : (ofString arg).Names long option text) (rest : List String) :
    optionArguments none (arg :: rest) = arg :: optionArguments (awaited option text) rest := by
  rw [optionArguments]
  generalize ofString arg = argument at h
  cases h <;> rfl

end Argument

namespace Draft

/-! ## §2. Drafts up to their patterns. -/

/-- The draft with other patterns. -/
def withPatterns (d : Draft) (patterns : List String) : Draft := { d with patterns }

@[simp] theorem options_withPatterns (d : Draft) (ps : List String) :
    (d.withPatterns ps).options = d.options := rfl

@[simp] theorem withPatterns_withPatterns (d : Draft) (ps qs : List String) :
    (d.withPatterns ps).withPatterns qs = d.withPatterns qs := rfl

@[simp] theorem withPatterns_addPattern (d : Draft) (p : String) (ps : List String) :
    (d.addPattern p).withPatterns ps = d.withPatterns ps := rfl

theorem foldl_addPattern (d : Draft) (ps : List String) :
    ps.foldl addPattern d = d.withPatterns (d.patterns ++ ps) := by
  induction ps generalizing d with
  | nil =>
      rw [List.append_nil]
      rfl
  | cons p ps ih =>
      rw [List.foldl_cons, ih]
      show _ = d.withPatterns (d.patterns ++ p :: ps)
      rw [withPatterns_addPattern, addPattern, List.append_assoc, List.singleton_append]

theorem request_withPatterns {d : Draft} {ps : List String} (h : ps ≠ []) :
    (d.withPatterns ps).request = .run d.options ps := by
  have hpatterns : (d.withPatterns ps).patternsOrDefault = ps := by
    show (if ps.isEmpty then defaultPatterns else ps) = ps
    rw [if_neg]
    simpa using h
  rw [request, hpatterns, options_withPatterns]

theorem give_withPatterns (d : Draft) (ps : List String) (o : Valued) (value : String) :
    (d.withPatterns ps).give o value = (d.give o value).map (fun d => d.withPatterns ps) := by
  cases o with
  | emit =>
      show (do let parts ← (commaPieces value).mapM Part.ofName?; _) =
        Option.map _ (do let parts ← (commaPieces value).mapM Part.ofName?; _)
      cases (commaPieces value).mapM Part.ofName? with
      | none => rfl
      | some parts => rfl
  | format =>
      show Option.map _ (once d.format (formatOfName? value)) =
        Option.map _ (Option.map _ (once d.format (formatOfName? value)))
      cases once d.format (formatOfName? value) <;> rfl
  | name =>
      show Option.map _ (once d.name (some value)) =
        Option.map _ (Option.map _ (once d.name (some value)))
      cases once d.name (some value) <;> rfl
  | threshold =>
      show Option.map _ (once d.threshold (countOf? value)) =
        Option.map _ (Option.map _ (once d.threshold (countOf? value)))
      cases once d.threshold (countOf? value) <;> rfl

theorem setFlag_withPatterns (d : Draft) (ps : List String) (flag : OptionName) :
    (d.withPatterns ps).setFlag flag = (d.setFlag flag).map (fun d => d.withPatterns ps) := by
  cases flag with
  | noMinimize =>
      show (if d.noMinimize then _ else _) = Option.map _ (if d.noMinimize then _ else _)
      cases d.noMinimize <;> rfl
  | numeric =>
      show (if d.numeric then _ else _) = Option.map _ (if d.numeric then _ else _)
      cases d.numeric <;> rfl
  | valued o => rfl
  | help => rfl

/-! ## §3. One argument. -/

/-- **What an option does** does not depend on the patterns read so far: it
ends the reading without a run, or leads to a draft, the same one up to its
patterns, and the option waits that its name says. -/
theorem takeOption_cases (d : Draft) (long : Bool) (option : Option OptionName)
    (value : Option String) :
    (∃ d' : Draft, ∀ ps, (d.withPatterns ps).takeOption long option value =
        .next (d'.withPatterns ps) (awaited option value)) ∨
      ∃ r, (∀ ps, (d.withPatterns ps).takeOption long option value = .stop r) ∧
        ∀ o patterns, r ≠ .run o patterns := by
  have hrefused : ∀ o patterns, Request.refused ≠ .run o patterns := by
    intro o patterns h
    cases h
  have hdraft : ∀ (x : Option Draft) (f : List String → Option Draft),
      (∀ ps, f ps = x.map (fun d => d.withPatterns ps)) →
      (∃ d' : Draft, ∀ ps, Step.ofDraft? (f ps) = .next (d'.withPatterns ps) none) ∨
        ∃ r, (∀ ps, Step.ofDraft? (f ps) = .stop r) ∧ ∀ o patterns, r ≠ .run o patterns := by
    intro x f hf
    cases x with
    | none => exact .inr ⟨.refused, fun ps => by rw [hf]; rfl, hrefused⟩
    | some d' => exact .inl ⟨d', fun ps => by rw [hf]; rfl⟩
  -- the cases are those of the option and of its value
  match option, value with
  | none, _ => exact .inr ⟨.refused, fun _ => rfl, hrefused⟩
  | some (.valued o), none => exact .inl ⟨d, fun _ => rfl⟩
  | some (.valued o), some value =>
      exact hdraft (d.give o value) _ fun ps => d.give_withPatterns ps o value
  | some .noMinimize, some _ => exact .inr ⟨.refused, fun _ => rfl, hrefused⟩
  | some .noMinimize, none => exact hdraft (d.setFlag .noMinimize) _ (d.setFlag_withPatterns · _)
  | some .numeric, some _ => exact .inr ⟨.refused, fun _ => rfl, hrefused⟩
  | some .numeric, none => exact hdraft (d.setFlag .numeric) _ (d.setFlag_withPatterns · _)
  | some .help, value =>
      refine .inr ⟨if long ∧ value.isSome then .refused else .explain, fun _ => rfl, ?_⟩
      intro o patterns h
      split at h <;> cases h

/-- An option that leads to a draft leads there whatever the patterns are. -/
theorem takeOption_withPatterns {d d' : Draft} {long : Bool} {option : Option OptionName}
    {value : Option String} {pending : Option Valued}
    (h : d.takeOption long option value = .next d' pending) (ps : List String) :
    (d.withPatterns ps).takeOption long option value = .next (d'.withPatterns ps) pending := by
  rcases d.takeOption_cases long option value with ⟨d'', hd''⟩ | ⟨r, hr, _⟩
  · cases h.symm.trans (hd'' d.patterns)
    rw [hd'', withPatterns_withPatterns]
  · cases h.symm.trans (hr d.patterns)

/-! ## §4. All arguments. -/

/-- **Induction along a reading that comes down to a run**, on the arguments.  A
waiting option takes a plain text; otherwise the next argument ends the
options, is a pattern, or names an option that leads to a draft. -/
theorem read_induction {o : Options} {patterns : List String}
    {motive : Option Valued → List String → Draft → Prop}
    (done : ∀ d : Draft, d.options = o → motive none [] d)
    (separator : ∀ (arg : String) (rest : List String) (d : Draft),
      Argument.ofString arg = .separator → d.options = o → motive none (arg :: rest) d)
    (pattern : ∀ (arg : String) (rest : List String) (d : Draft),
      Argument.ofString arg = .plain arg → motive none rest (d.addPattern arg) →
        motive none (arg :: rest) d)
    (value : ∀ (waiting : Valued) (arg : String) (rest : List String) (d d' : Draft),
      Argument.ofString arg = .plain arg → d.give waiting arg = some d' →
        motive none rest d' → motive (some waiting) (arg :: rest) d)
    (option : ∀ (arg : String) (rest : List String) (d d' : Draft) (long : Bool)
      (option : Option OptionName) (text : Option String),
      (Argument.ofString arg).Names long option text →
        d.takeOption long option text = .next d' (awaited option text) →
        motive (awaited option text) rest d' → motive none (arg :: rest) d)
    (args : List String) : ∀ (pending : Option Valued) (d : Draft),
      d.read pending args = .run o patterns → motive pending args d := by
  induction args with
  | nil =>
      intro pending d h
      cases pending with
      | some _ => cases h
      | none =>
          cases h
          exact done d rfl
  | cons arg rest ih =>
      intro pending d h
      cases pending with
      | some waiting =>
          rw [read] at h
          cases harg : Argument.ofString arg with
          | plain text =>
              cases Argument.eq_of_ofString_plain harg
              rw [harg, take] at h
              cases hgive : d.give waiting arg with
              | none =>
                  rw [hgive] at h
                  cases h
              | some d' =>
                  rw [hgive] at h
                  exact value _ _ _ _ _ harg hgive (ih none d' h)
          | separator | long | short =>
              rw [harg] at h
              cases h
      | none =>
          rcases (Argument.ofString arg).cases_names with hsep | ⟨text, hplain⟩ |
            ⟨long, name, text, hnames⟩
          · rw [read, hsep] at h
            simp only [take, foldl_addPattern] at h
            cases h
            exact separator _ _ _ hsep rfl
          · cases Argument.eq_of_ofString_plain hplain
            rw [read, hplain] at h
            exact pattern _ _ _ hplain (ih none _ h)
          · rw [read, hnames.take] at h
            rcases d.takeOption_cases long name text with ⟨d', hd'⟩ | ⟨r, hr, hrun⟩
            · have hnext : d.takeOption long name text =
                  .next (d'.withPatterns d.patterns) (awaited name text) := hd' d.patterns
              rw [hnext] at h
              exact option _ _ _ _ _ _ _ hnames hnext (ih _ _ h)
            · have hstop : d.takeOption long name text = .stop r := hr d.patterns
              rw [hstop] at h
              exact absurd h (hrun o patterns)

/-- Behind `--` everything is a pattern. -/
theorem read_separator (d : Draft) {ps : List String} (h : d.patterns ++ ps ≠ []) :
    d.read none ("--" :: ps) = .run d.options (d.patterns ++ ps) := by
  show (ps.foldl addPattern d).request = _
  rw [foldl_addPattern, request_withPatterns h]

/-- **The options among arguments ask for the same**, whatever patterns stand
behind them. -/
theorem read_optionArguments {o : Options} {patterns qs : List String} (hqs : qs ≠ [])
    (args : List String) (pending : Option Valued) (d : Draft)
    (h : d.read pending args = .run o patterns) :
    (d.withPatterns []).read pending (optionArguments pending args ++ "--" :: qs) =
      .run o qs := by
  refine read_induction (motive := fun pending args d =>
    (d.withPatterns []).read pending (optionArguments pending args ++ "--" :: qs) = .run o qs)
    ?done ?separator ?pattern ?value ?option args pending d h
  case done =>
    rintro d rfl
    exact read_separator _ hqs
  case separator =>
    rintro arg rest d harg rfl
    simp only [optionArguments, harg]
    exact read_separator _ hqs
  case pattern =>
    intro arg rest d harg ih
    simp only [optionArguments, harg]
    exact ih
  case value =>
    intro waiting arg rest d d' harg hgive ih
    rw [optionArguments, List.cons_append, read, harg, take, give_withPatterns, hgive]
    exact ih
  case option =>
    intro arg rest d d' long option text hnames hnext ih
    rw [hnames.optionArguments_cons, List.cons_append, read, hnames.take,
      takeOption_withPatterns hnext]
    exact ih

end Draft

/-- **The same options for other patterns**: the arguments that name options,
and behind them the patterns. -/
theorem requestOf_optionArguments {args : List String} {o : Options} {patterns qs : List String}
    (h : requestOf args = .run o patterns) (hqs : qs ≠ []) :
    requestOf (optionArguments none args ++ "--" :: qs) = .run o qs :=
  Draft.read_optionArguments hqs args none Draft.empty h

-- a value may look like a pattern, and behind `--` nothing is an option
example : optionArguments none ["a|b", "-n", "x", "--numeric", "(c", "--", "-e"] =
    ["-n", "x", "--numeric"] := by
  decide +kernel

end LineScan.CommandLine
