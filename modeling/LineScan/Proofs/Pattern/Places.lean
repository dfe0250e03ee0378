/-
  LineScan.Proofs.Pattern.Places
  ──────────────────────────────
  **AN ERROR POINTS AT WHAT IT NAMES.**

  A reader points at the token it refuses, or at a token it has kept in mind
  since: the parenthesis of an open group, the bracket of the open class, the
  dash of a range.  `Phase.places` lists what is kept in mind.  Three links
  lead from there to the text:

      one token    keeps nothing in mind but tokens read, and blames one of
                   them, or itself                     (`Reader.step_confined`)
      all tokens   the same along a whole reading      (`places_of_reads`)
      the text     a token at a place is the operator that stands there
                                                       (`Token.head?_ahead`)

  Before such a place there are only bytes below 128, so it is at a character
  boundary and the caret stands under it (`Nfa.ofPattern_error_points`).
-/
import LineScan.Proofs.Pattern.Prefix
import LineScan.Proofs.Pattern.Spelling
import LineScan.Proofs.Text.Utf8

namespace LineScan

/-! ## §1. What is kept in mind. -/

/-- A kind of token, and the offset at which such a token stands. -/
abbrev Place := Kind × Nat

/-- Where a token stands. -/
def Token.place (t : Token) : Place := (t.kind, t.position)

/-- The dash that may make a range. -/
def Memory.places : Memory → List Place
  | .nothing | .single _ => []
  | .pending _ position => [(.dash, position)]

/-- What is kept in mind inside a class. -/
def Bracket.places : Bracket → List Place
  | .opened | .negated => []
  | .body _ _ memory => memory.places

/-- The parentheses of the open groups. -/
def Outer.places (outer : Outer) : List Place :=
  outer.groups.map fun group => (.leftParen, group.openedAt)

/-- **The places that are kept in mind** between two tokens. -/
def Phase.places : Phase → List Place
  | .ruleStart | .afterDollar _ => []
  | .operand outer _ | .afterTerm outer _ _ | .afterFactor outer _ _ => outer.places
  | .inBracket outer _ openedAt bracket =>
      (.leftBracket, openedAt) :: (bracket.places ++ outer.places)

/-- What is kept in mind inside a class, unless it is complete. -/
def Bracket.Outcome.places : Bracket.Outcome → List Place
  | .more b => b.places
  | .closed _ => []

/-! ## §2. What is blamed. -/

/-- **The place that an error blames.**  An open group or class is to blame
only if the text has ended. -/
inductive SyntaxError.Blames (ended : Prop) : SyntaxError → Place → Prop where
  | quantifier {q : Symbol} {k : Kind} {p : Nat} : (Phase.quantifier? k).isSome →
      k = Kind.ofPlain q.toByte → Blames ended (.danglingQuantifier q p) (k, p)
  | bracket {p : Nat} : Blames ended (.strayBracket p) (.rightBracket, p)
  | caret {p : Nat} : Blames ended (.strayCaret p) (.caret, p)
  | dollar {p : Nat} : Blames ended (.unmatchedParen p) (.dollar, p)
  | openParen {p : Nat} : ended → Blames ended (.unmatchedParen p) (.leftParen, p)
  | closeParen {p : Nat} : Blames ended (.strayParen p) (.rightParen, p)
  | empty {k : Kind} {p : Nat} : k ∈ [Kind.rightParen, Kind.dollar, Kind.pipe] →
      Blames ended (.emptyExpression p) (k, p)
  | unterminated {p : Nat} : ended → Blames ended (.unterminatedClass p) (.leftBracket, p)
  | range {low high : Symbol} {p : Nat} : Blames ended (.invalidRange low high p) (.dash, p)

/-- What comes of a token keeps known places in mind only, and blames one of
them. -/
def Confined (known : Set Place) (ended : Prop) {ε α : Type} (error : ε → SyntaxError)
    (places : α → List Place) : Except ε α → Prop
  | .error e => ∃ place ∈ known, (error e).Blames ended place
  | .ok x => ∀ place ∈ places x, place ∈ known

/-! ## §3. One token. -/

section step

variable {known : Set Place} {ended : Prop} {outer : Outer} {t : Token}

theorem Bracket.stepBody_confined {complement : Bool} {set : SymbolSet} {memory : Memory}
    (hmemory : ∀ place ∈ memory.places, place ∈ known) (ht : t.place ∈ known) :
    Confined known ended id Outcome.places (stepBody complement set memory t) := by
  unfold stepBody
  split
  -- a `]` closes the class, with or without a dash before it
  · exact List.forall_mem_nil _
  · exact List.forall_mem_nil _
  · -- the dash before the token is what makes a range of it
    next low position _ =>
      split
      · exact ⟨(.dash, position), hmemory _ (List.mem_singleton_self _), .range⟩
      · exact List.forall_mem_nil _
  · -- a dash behind a symbol is kept in mind until the next token
    next hk =>
      intro place hplace
      rw [List.mem_singleton.1 hplace, ← hk]
      exact ht
  · exact List.forall_mem_nil _

theorem Bracket.step_confined {b : Bracket} (hb : ∀ place ∈ b.places, place ∈ known)
    (ht : t.place ∈ known) : Confined known ended id Outcome.places (b.step t) := by
  have hnothing : ∀ place ∈ Memory.nothing.places, place ∈ known := List.forall_mem_nil _
  have hfirst : ∀ complement,
      Confined known ended id Outcome.places (stepFirst complement t) := by
    intro complement
    unfold stepFirst
    split
    · exact List.forall_mem_nil _
    · exact stepBody_confined hnothing ht
  cases b with
  | opened =>
      show Confined known ended id Outcome.places
        (if t.kind = .caret then .ok (.more .negated) else stepFirst false t)
      split
      · exact List.forall_mem_nil _
      · exact hfirst false
  | negated => exact hfirst true
  | body complement set memory => exact stepBody_confined hb ht

namespace Phase

/-- A token that begins no factor is to blame itself. -/
theorem beginFactor_confined {before : Branch} (houter : ∀ place ∈ outer.places, place ∈ known)
    (ht : t.place ∈ known) (hproper : t.Proper) :
    Confined known ended id places (beginFactor outer before t) := by
  have hquantifier : (quantifier? t.kind).isSome →
      SyntaxError.Blames ended (.danglingQuantifier t.symbol t.position) t.place := by
    intro hq
    refine .quantifier hq (hproper.resolve_left ?_)
    intro hliteral
    rw [hliteral] at hq
    cases hq
  unfold Token.place at ht hquantifier
  unfold beginFactor
  cases hk : t.kind <;> rw [hk] at ht hquantifier
  case star | plus | questionMark => exact ⟨_, ht, hquantifier rfl⟩
  case rightBracket => exact ⟨_, ht, .bracket⟩
  case caret => exact ⟨_, ht, .caret⟩
  case rightParen | dollar | pipe => exact ⟨_, ht, .empty (by decide)⟩
  case dot | dash | literal => exact houter
  case leftParen | leftBracket =>
    -- the token is kept in mind, with all that was
    intro place hplace
    rcases List.mem_cons.1 hplace with rfl | hplace
    · exact ht
    · exact houter place hplace

theorem afterFactorStep_confined {alts : Option Regex} {cat : Regex}
    (houter : ∀ place ∈ outer.places, place ∈ known) (ht : t.place ∈ known)
    (hproper : t.Proper) :
    Confined known ended id places (afterFactorStep outer alts cat t) := by
  have hbegin : Confined known ended id places (beginFactor outer ⟨alts, some cat⟩ t) :=
    beginFactor_confined houter ht hproper
  obtain ⟨bol, groups⟩ := outer
  unfold Token.place at ht
  unfold afterFactorStep
  split
  · exact houter
  · -- a `)` forgets the innermost group, if there is one
    next hk =>
      rw [hk] at ht
      cases groups with
      | nil => exact ⟨_, ht, .closeParen⟩
      | cons group groups => exact fun place hplace => houter place (List.mem_cons_of_mem _ hplace)
  · -- a `$` must stand outside all groups
    next hk =>
      rw [hk] at ht
      cases groups with
      | nil => exact List.forall_mem_nil _
      | cons group groups => exact ⟨_, ht, .dollar⟩
  · exact hbegin

theorem afterTermStep_confined {before : Branch} {term : Regex}
    (houter : ∀ place ∈ outer.places, place ∈ known) (ht : t.place ∈ known)
    (hproper : t.Proper) :
    Confined known ended id places (afterTermStep outer before term t) := by
  unfold afterTermStep
  split
  · exact houter
  · exact afterFactorStep_confined houter ht hproper

theorem ruleStartStep_confined (ht : t.place ∈ known) (hproper : t.Proper) :
    Confined known ended id places (ruleStartStep t) := by
  have houter : ∀ bol, ∀ place ∈ Outer.places ⟨bol, []⟩, place ∈ known :=
    fun _ => List.forall_mem_nil _
  unfold ruleStartStep
  split
  · exact houter true
  · exact beginFactor_confined (houter false) ht hproper

theorem bracketStep_confined {before : Branch} {openedAt : Nat} {bracket : Bracket}
    (hphase : ∀ place ∈ (inBracket outer before openedAt bracket).places, place ∈ known)
    (ht : t.place ∈ known) :
    Confined known ended id places (bracketStep outer before openedAt bracket t) := by
  have hopened : (Kind.leftBracket, openedAt) ∈ known := hphase _ List.mem_cons_self
  have hbracket : ∀ place ∈ bracket.places, place ∈ known := fun place hplace =>
    hphase place (List.mem_cons_of_mem _ (List.mem_append_left _ hplace))
  have houter : ∀ place ∈ outer.places, place ∈ known := fun place hplace =>
    hphase place (List.mem_cons_of_mem _ (List.mem_append_right _ hplace))
  have hstep : Confined known ended id Bracket.Outcome.places (bracket.step t) :=
    Bracket.step_confined hbracket ht
  unfold bracketStep
  split
  · next hb => rwa [hb] at hstep
  · next hb =>
      rw [hb] at hstep
      intro place hplace
      rcases List.mem_cons.1 hplace with rfl | hplace
      · exact hopened
      · rcases List.mem_append.1 hplace with hplace | hplace
        · exact hstep place hplace
        · exact houter place hplace
  · exact houter

end Phase

namespace Reader

variable {r r' : Reader}

theorem enter_confined {x : Except SyntaxError Phase} (h : Confined known ended id Phase.places x) :
    Confined known ended Refusal.error (fun r => r.phase.places) (r.enter x) := by
  cases x with
  | ok phase => exact h
  | error e => exact h

/-- **One token** leaves known places in mind only, and if it is refused one
of them is to blame. -/
theorem step_confined (hr : ∀ place ∈ r.phase.places, place ∈ known) (ht : t.place ∈ known)
    (hproper : t.Proper) :
    Confined known ended Refusal.error (fun r => r.phase.places) (r.step t) := by
  obtain ⟨rules, phase⟩ := r
  cases phase with
  | ruleStart => exact enter_confined (Phase.ruleStartStep_confined ht hproper)
  | operand outer alts => exact enter_confined (Phase.beginFactor_confined hr ht hproper)
  | afterTerm outer before term => exact enter_confined (Phase.afterTermStep_confined hr ht hproper)
  | afterFactor outer alts cat => exact enter_confined (Phase.afterFactorStep_confined hr ht hproper)
  | inBracket outer before openedAt bracket =>
      exact enter_confined (Phase.bracketStep_confined hr ht)
  | afterDollar rule =>
      unfold step
      simp only
      split
      · next hk =>
          rw [Token.place, hk] at ht
          exact ⟨_, ht, .closeParen⟩
      · exact enter_confined (Phase.ruleStartStep_confined ht hproper)

/-! ## §4. All tokens. -/

/-- **Along a whole reading** nothing but tokens read is kept in mind. -/
theorem places_of_reads {ts : List Token} (h : r.Reads ts r')
    (hts : ∀ t ∈ ts, t.place ∈ known ∧ t.Proper)
    (hr : ∀ place ∈ r.phase.places, place ∈ known) :
    ∀ place ∈ r'.phase.places, place ∈ known := by
  -- the induction is on the tokens; each step carries what is kept in mind to the next reader
  induction ts generalizing r with
  | nil =>
      cases h
      exact hr
  | cons t ts ih =>
      rw [Reads, feedAll, List.map_cons, List.foldlM_cons] at h
      obtain ⟨ht, hproper⟩ := hts t List.mem_cons_self
      have hstep : Confined known False Refusal.error (fun r => r.phase.places) (r.step t) :=
        step_confined hr ht hproper
      cases hnext : r.step t with
      | error refusal =>
          simp only [feed, hnext, bind, Except.bind] at h
          cases h
      | ok next =>
          simp only [feed, hnext, bind, Except.bind] at h
          rw [hnext] at hstep
          exact ih h (fun u hu => hts u (List.mem_cons_of_mem _ hu)) hstep

/-- **At the end** an open group or class is to blame, unless an expression is
missing there. -/
theorem blames_of_finish {stop : Nat} {refusal : Refusal} (h : r.finish stop = .error refusal)
    (hr : ∀ place ∈ r.phase.places, place ∈ known) :
    refusal.error = .emptyExpression stop ∨
      ∃ place ∈ known, refusal.error.Blames True place := by
  have hclose : ∀ (outer : Outer) (body : Regex),
      (∀ place ∈ outer.places, place ∈ known) → r.close outer body = .error refusal →
        ∃ place ∈ known, refusal.error.Blames True place := by
    rintro ⟨bol, groups⟩ body houter h
    cases groups with
    | nil => cases h
    | cons group groups =>
        cases h
        exact ⟨(.leftParen, group.openedAt), houter _ List.mem_cons_self, .openParen trivial⟩
  obtain ⟨rules, phase⟩ := r
  cases phase with
  | ruleStart | operand =>
      cases h
      exact .inl rfl
  | afterTerm outer before term => exact .inr (hclose outer _ hr h)
  | afterFactor outer alts cat => exact .inr (hclose outer _ hr h)
  | inBracket outer before openedAt bracket =>
      cases h
      exact .inr ⟨(.leftBracket, openedAt), hr _ List.mem_cons_self, .unterminated trivial⟩
  | afterDollar rule => cases h

end Reader

end step

/-! ## §5. The text. -/

/-- The byte that an operator is written as. -/
def Kind.byte? : Kind → Option UInt8
  | .leftBracket => some 0x5b
  | .rightBracket => some 0x5d
  | .leftParen => some 0x28
  | .rightParen => some 0x29
  | .caret => some 0x5e
  | .dash => some 0x2d
  | .dot => some 0x2e
  | .dollar => some 0x24
  | .literal => none
  | .pipe => some 0x7c
  | .plus => some 0x2b
  | .questionMark => some 0x3f
  | .star => some 0x2a

theorem Kind.byte?_ofPlain : ∀ a : Symbol, Kind.ofPlain a.toByte ≠ .literal →
    (Kind.ofPlain a.toByte).byte? = some a.toByte := by
  decide +kernel

/-- **What an error names**, given the bytes of the text from its place on. -/
def SyntaxError.Names (ended : Prop) (ahead : List UInt8) : SyntaxError → Prop
  | .danglingQuantifier q _ =>
      ahead.head? = some q.toByte ∧ q.toByte ∈ [(0x2a : UInt8), 0x2b, 0x3f]
  | .strayBracket _ => ahead.head? = some 0x5d
  | .strayCaret _ => ahead.head? = some 0x5e
  | .unmatchedParen _ => (ahead.head? = some 0x28 ∧ ended) ∨ ahead.head? = some 0x24
  | .strayParen _ => ahead.head? = some 0x29
  | .emptyExpression _ =>
      ahead = [] ∨ ∃ b ∈ [(0x29 : UInt8), 0x24, 0x7c], ahead.head? = some b
  | .unterminatedClass _ => ahead.head? = some 0x5b
  | .invalidRange _ _ _ => ahead.head? = some 0x2d
  | .byteOutOfRange b _ =>
      126 < b.toNat ∧ (ahead.head? = some b ∨ ∃ tail, ahead = 0x5c :: b :: tail)

/-- What is blamed is named, if it stands at its place. -/
theorem SyntaxError.Blames.names {ended : Prop} {e : SyntaxError} {k : Kind} {p : Nat}
    {ahead : List UInt8} (h : e.Blames ended (k, p))
    (hahead : k ≠ .literal → ahead.head? = k.byte?) :
    e.position = p ∧ e.Names ended ahead := by
  cases h with
  | @quantifier q _ _ hq hplain =>
      have hoperator : k ≠ .literal := by
        intro hliteral
        rw [hliteral] at hq
        cases hq
      have hbyte : k.byte? = some q.toByte := by
        rw [hplain]
        exact Kind.byte?_ofPlain q (hplain ▸ hoperator)
      refine ⟨rfl, (hahead hoperator).trans hbyte, ?_⟩
      cases k <;> cases hq <;> (injection hbyte with hbyte; rw [← hbyte]; decide)
  | bracket => exact ⟨rfl, hahead (by decide)⟩
  | caret => exact ⟨rfl, hahead (by decide)⟩
  | dollar => exact ⟨rfl, .inr (hahead (by decide))⟩
  | openParen hended => exact ⟨rfl, .inl ⟨hahead (by decide), hended⟩⟩
  | closeParen => exact ⟨rfl, hahead (by decide)⟩
  | empty hk =>
      simp only [List.mem_cons, List.not_mem_nil, or_false] at hk
      obtain rfl | rfl | rfl := hk
      · exact ⟨rfl, .inr ⟨0x29, by decide, hahead (by decide)⟩⟩
      · exact ⟨rfl, .inr ⟨0x24, by decide, hahead (by decide)⟩⟩
      · exact ⟨rfl, .inr ⟨0x7c, by decide, hahead (by decide)⟩⟩
  | unterminated => exact ⟨rfl, hahead (by decide)⟩
  | range => exact ⟨rfl, hahead (by decide)⟩

/-- **An error at its place**: behind bytes below 128, where the text goes on
with what the error names. -/
def SyntaxError.Located (pattern : String) (ended : Prop) (e : SyntaxError) : Prop :=
  ∃ front ahead, utf8 pattern = front ++ ahead ∧ Ascii front ∧ e.position = front.length ∧
    e.Names ended ahead

/-- The places of the tokens of a text, up to the first foreign byte. -/
def placesOf (pattern : String) : Set Place :=
  { place | ∃ (ts : List Token) (t : Token) (rest : List Item),
      itemsOf pattern = ts.map Item.token ++ Item.token t :: rest ∧ t.place = place }

variable {pattern : String} {ended : Prop} {e : SyntaxError}

theorem mem_placesOf {ts : List Token} {rest : List Item} {t : Token}
    (h : itemsOf pattern = ts.map Item.token ++ rest) (ht : t ∈ ts) :
    t.place ∈ placesOf pattern := by
  obtain ⟨before, after, rfl⟩ := List.append_of_mem ht
  refine ⟨before, t, after.map Item.token ++ rest, ?_, rfl⟩
  rw [h, List.map_append, List.map_cons, List.append_assoc, List.cons_append]

theorem proper_of_split {items rest : List Item} {t : Token}
    (h : itemsOf pattern = items ++ Item.token t :: rest) : t.Proper := by
  refine Cursor.proper_of_mem_items (Cursor.start pattern) ?_
  show Item.token t ∈ itemsOf pattern
  rw [h]
  exact List.mem_append_right _ List.mem_cons_self

/-- **What is blamed is where it is said to be.** -/
theorem located_of_blames {place : Place} (hplace : place ∈ placesOf pattern)
    (h : e.Blames ended place) : e.Located pattern ended := by
  obtain ⟨ts, t, rest, hitems, rfl⟩ := hplace
  obtain ⟨front, spelling, further, hbytes, hfront, hposition, hspelled⟩ := exists_spelling hitems
  -- an operator has one spelling, its byte
  have hahead : t.kind ≠ .literal → (spelling ++ further).head? = t.kind.byte? := by
    intro hk
    have hplain := (proper_of_split hitems).resolve_left hk
    rw [hspelled.eq_of_kind_ne hk, hplain, Kind.byte?_ofPlain t.symbol (hplain ▸ hk)]
    rfl
  obtain ⟨hp, hnames⟩ := h.names hahead
  exact ⟨front, spelling ++ further, hbytes, hfront, hp.trans hposition, hnames⟩

/-- A foreign byte is where it is said to be, or its backslash is. -/
theorem located_byteOutOfRange {ts : List Token} {rest : List Item} {b : UInt8} {p : Nat}
    (h : itemsOf pattern = ts.map Item.token ++ Item.foreign b p :: rest) :
    (SyntaxError.byteOutOfRange b p).Located pattern ended := by
  obtain ⟨front, spelling, further, hbytes, hfront, hposition, hspelled⟩ := exists_spelling h
  refine ⟨front, spelling ++ further, hbytes, hfront, hposition, ?_⟩
  cases hspelled with
  | foreign hb => exact ⟨hb, .inl rfl⟩
  | foreignEscaped hb => exact ⟨hb, .inr ⟨further, rfl⟩⟩

/-- **Whatever refuses a text is located in it.** -/
theorem RefusedAt.located {refusal : Refusal} (h : RefusedAt pattern refusal) :
    refusal.error.Located pattern ((requestsOf pattern).2 = none) := by
  have hnothing : ∀ place ∈ Reader.start.phase.places, place ∈ placesOf pattern :=
    List.forall_mem_nil _
  cases h with
  | @item ts i rest r hitems hproper hreads hfeed hreq =>
      have hkept := Reader.places_of_reads hreads
        (fun t ht => ⟨mem_placesOf hitems ht, hproper t ht⟩) hnothing
      cases i with
      | foreign b p =>
          cases hfeed
          exact located_byteOutOfRange hitems
      | token t =>
          have hstep : Confined (placesOf pattern) ((requestsOf pattern).2 = none) Refusal.error
              (fun r => r.phase.places) (r.step t) :=
            Reader.step_confined hkept ⟨ts, t, rest, hitems, rfl⟩ (proper_of_split hitems)
          rw [show r.step t = .error refusal from hfeed] at hstep
          obtain ⟨place, hplace, hblames⟩ := hstep
          exact located_of_blames hplace hblames
  | @stop ts r hitems hproper hreads hfinish hreq =>
      have hitems' : itemsOf pattern = ts.map Item.token ++ [] := by
        rw [hitems, List.append_nil]
      have hkept := Reader.places_of_reads hreads
        (fun t ht => ⟨mem_placesOf hitems' ht, hproper t ht⟩) hnothing
      have hended : ((requestsOf pattern).2 = none) = True := by
        rw [hreq]
        exact eq_self _
      rcases Reader.blames_of_finish hfinish hkept with hempty | ⟨place, hplace, hblames⟩
      · -- an expression is missing at the very end
        obtain ⟨hascii, hend⟩ := ascii_of_itemsOf hitems
        rw [hempty]
        exact ⟨utf8 pattern, [], (List.append_nil _).symm, hascii, hend, .inl rfl⟩
      · rw [hended]
        exact located_of_blames hplace hblames

/-- **The caret stands under what the error names.**  The place of an error is
at a character boundary, so the caret has the characters before it to its
left. -/
theorem Nfa.ofPattern_error_points {pattern : String} {e : CompileError}
    (h : Nfa.ofPattern? pattern = .error e) :
    ∃ error, e = .pattern error ∧ error.position ≤ pattern.utf8ByteSize ∧
      ∃ before after : String, pattern = before ++ after ∧
        before.utf8ByteSize = error.position ∧
        (∀ emphasis, error.render emphasis pattern =
          emphasis.red "error" ++ ": " ++ error.message ++ "\n | " ++ pattern ++ "\n | " ++
            String.ofList (List.replicate before.length ' ') ++ emphasis.green "^") ∧
        error.Names ((requestsOf pattern).2 = none) (utf8 after) := by
  obtain ⟨refusal, hread, rfl⟩ := Nfa.exists_refusal_of_ofPattern h
  obtain ⟨front, ahead, hbytes, hfront, hposition, hnames⟩ :=
    (refusedAt_of_readRules hread).located
  obtain ⟨before, after, hsplit, hsize, hafter⟩ := exists_split_of_ascii hbytes hfront
  have hboundary : before.utf8ByteSize = refusal.error.position := hsize.trans hposition.symm
  have hcolumn : columnOf pattern refusal.error.position = before.length := by
    rw [hsplit, ← hboundary]
    exact columnOf_append before after
  refine ⟨refusal.error, rfl, ?_, before, after, hsplit, hboundary, ?_, hafter ▸ hnames⟩
  · rw [← hboundary, hsplit, String.utf8ByteSize_append]
    exact Nat.le_add_right _ _
  · intro emphasis
    rw [SyntaxError.render, hcolumn]

/-- The second parenthesis is quoted, the third one is open at the end. -/
theorem Nfa.ofPattern_error_points_open :
    Nfa.ofPattern? "(a)\"\\\"(\"(b" = .error (.pattern (.unmatchedParen 8)) ∧
      ∃ error, CompileError.pattern (.unmatchedParen 8) = .pattern error ∧
        error.position ≤ "(a)\"\\\"(\"(b".utf8ByteSize ∧
        ∃ before after : String, "(a)\"\\\"(\"(b" = before ++ after ∧
          before.utf8ByteSize = error.position ∧
          (∀ emphasis, error.render emphasis "(a)\"\\\"(\"(b" =
            emphasis.red "error" ++ ": " ++ error.message ++ "\n | " ++ "(a)\"\\\"(\"(b" ++
              "\n | " ++ String.ofList (List.replicate before.length ' ') ++
              emphasis.green "^") ∧
          error.Names ((requestsOf "(a)\"\\\"(\"(b").2 = none) (utf8 after) := by
  have hread : readRules "(a)\"\\\"(\"(b" = .error ⟨.unmatchedParen 8, []⟩ := by
    decide +kernel
  have h := Nfa.ofPattern?_eq_error hread
  exact ⟨h, Nfa.ofPattern_error_points h⟩

end LineScan
