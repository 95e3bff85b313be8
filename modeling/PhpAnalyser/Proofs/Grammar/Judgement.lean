import PhpAnalyser.Proofs.Grammar.State
/-!
What a reader does, whatever it is given: it has an outcome, every success has the property that
is asked for, and every failure leaves a state from which reading can go on. The rules follow the
ways in which readers are put together.
-/
namespace PhpAnalyser

structure Began (s s' : ParserState) : Prop where
  ordinary : s.token.kind.isOrdinary
  start_le : s.here ≤ s'.last.start
  stop_lt : s.here < s'.last.stop

/-- From `s` to `s'` the nodes `ids`, and perhaps others, were made. -/
structure Gathered (c : Setting) (s s' : ParserState) (ids : List Nat) : Prop where
  valid : Valid s
  sound : Sound c s'
  onward : Onward s s'
  pending : Pending s.nodes.size s'.nodes s.here s'.last.stop ids

structure Underway (c : Setting) (s s' : ParserState) (ids : List Nat) : Prop
    extends Gathered c s s' ids where
  begun : s.place < s'.place → Began s s'

structure Made (c : Setting) (s : ParserState) (i : Nat) (s' : ParserState) : Prop
    extends Underway c s s' [i] where
  place_lt : s.place < s'.place

/-- A failure on the way from `s`. An error that can be recovered from is at the current token. -/
structure Fails (s : ParserState) (e : ParseError) (s' : ParserState) : Prop where
  valid : Valid s'
  onward : Onward s s'
  located : ∃ t ∈ s'.tokens, t.span = e.span
  start_le : e.span.start ≤ s'.here
  noted_lt : ∀ f ∈ s'.errors, f.span.start < e.span.start
  resumes : e.fault.isRecoverable →
    e.span = s'.token.span ∧ s'.token.kind ≠ .eof ∧ s'.token.kind.isError = false

/-- Every success of `p` at `s` has the property `Q`, and every failure is one on the way from
`origin`. -/
def Reads (origin : ParserState) (p : Parser α) (s : ParserState) (Q : α → ParserState → Prop) :
    Prop :=
  match p s with
  | some (.ok a, s') => Q a s'
  | some (.error e, s') => Fails origin e s'
  | none => False

section Onward

variable {c c' : Setting} {s s₁ s₂ : ParserState} {ids later : List Nat}

theorem Began.mono (began : Began s s₁) (onward : Onward s₁ s₂) : Began s s₂ where
  ordinary := began.ordinary
  start_le := Nat.le_trans began.start_le onward.start_le
  stop_lt := Nat.lt_of_lt_of_le began.stop_lt onward.stop_le

theorem TokenKind.ne_of_ordinary {kind other : TokenKind} (ordinary : kind.isOrdinary)
    (not : other.isOrdinary = false) : kind ≠ other := by
  rintro rfl
  rw [not] at ordinary
  cases ordinary

theorem Anchored.of_ordinary {tokens : Array Token} {t : Token} (lexed : Lexed tokens)
    (member : t ∈ tokens) (ordinary : t.kind.isOrdinary) : Anchored tokens t.span :=
  .of_token lexed member (TokenKind.ne_of_ordinary ordinary rfl)
    (TokenKind.ne_of_ordinary ordinary rfl)

theorem Began.anchored_start (began : Began s s₁) (onward : Onward s s₁) (valid : Valid s₁) :
    Anchored s₁.tokens s.token.span :=
  .of_ordinary valid.lexed (onward.tokens ▸ s.token_mem) began.ordinary

theorem Began.anchored_last (began : Began s s₁) (valid : Valid s₁) :
    Anchored s₁.tokens s₁.last := by
  refine valid.last.resolve_left fun same => ?_
  have stop_lt := began.stop_lt
  rw [same] at stop_lt
  exact Nat.not_lt_zero _ stop_lt

theorem Gathered.nothing (valid : Valid s) (sound : Sound c s₁) (onward : Onward s s₁) :
    Gathered c s s₁ [] :=
  ⟨valid, sound, onward, .nil⟩

theorem Sound.underway (sound : Sound c s) : Underway c s s [] where
  toGathered := .nothing sound.toValid sound (.refl s)
  begun lt := absurd lt (Nat.lt_irrefl _)

theorem Gathered.then (first : Gathered c s s₁ ids) (second : Gathered c' s₁ s₂ later) :
    Gathered c' s s₂ (ids ++ later) where
  valid := first.valid
  sound := second.sound
  onward := first.onward.trans second.onward
  pending := first.pending.append second.onward.grown second.pending (Nat.le_refl _)
    first.onward.grown.size_le (first.onward.here_le first.valid) first.sound.last_le
    second.onward.stop_le

theorem Underway.then (first : Underway c s s₁ ids) (second : Underway c' s₁ s₂ later) :
    Underway c' s s₂ (ids ++ later) where
  toGathered := first.toGathered.then second.toGathered
  begun lt := by
    rcases Nat.lt_or_eq_of_le first.onward.place_le with moved | same
    · exact (first.begun moved).mono second.onward
    · have began := second.begun (same ▸ lt)
      have token := first.onward.token_eq same.symm
      have here : s₁.here = s.here := congrArg (·.span.start) token
      exact ⟨token ▸ began.ordinary, here ▸ began.start_le, here ▸ began.stop_lt⟩

/-- Nodes that were made may be left without a parent. -/
theorem Underway.drop (underway : Underway c s s₁ ids) : Underway c s s₁ [] where
  toGathered := .nothing underway.valid underway.sound underway.onward
  begun := underway.begun

/-- Behind the start of a construct its nodes need not be a construct themselves. -/
theorem Underway.gather (first : Underway c s s₁ ids) (lt : s.place < s₁.place)
    (second : Gathered c' s₁ s₂ later) : Underway c' s s₂ (ids ++ later) where
  toGathered := first.toGathered.then second
  begun _ := (first.begun lt).mono second.onward

theorem Underway.loosen (underway : Underway c s s₁ ids) (rest : c' = { c with loose := c'.loose })
    (le : ∀ i ∈ c.loose, i ∈ c'.loose) : Underway c' s s₁ ids where
  valid := underway.valid
  sound := underway.sound.loosen rest le
  onward := underway.onward
  pending := underway.pending
  begun := underway.begun

theorem last_step (ordinary : s.token.kind.isOrdinary) : s.advance.last = s.token.span := by
  rw [last_advance (TokenKind.ne_of_ordinary ordinary rfl), if_neg]
  exact TokenKind.ne_of_ordinary ordinary rfl

theorem Sound.step (sound : Sound c s) (ordinary : s.token.kind.isOrdinary) :
    Underway c s s.advance [] where
  toGathered := by
    refine .nothing sound.toValid (sound.advance fun isError => ?_) sound.onward_advance
    cases kind : s.token.kind with
    | error _ =>
      rw [kind] at ordinary
      cases ordinary
    | _ =>
      rw [kind] at isError
      cases isError
  begun _ := by
    have last := last_step ordinary
    refine ⟨ordinary, ?_, ?_⟩ <;> rw [last]
    · exact Nat.le_refl _
    · exact sound.lexed.extent _ s.token_mem (TokenKind.ne_of_ordinary ordinary rfl)

theorem Underway.step (underway : Underway c s s₁ ids) (ordinary : s₁.token.kind.isOrdinary) :
    Underway c s s₁.advance ids := by
  simpa using underway.then (underway.sound.step ordinary)

end Onward

theorem run_bind (p : Parser α) (f : α → Parser β) (s : ParserState) :
    (p >>= f) s = match p s with
      | some (.ok a, s') => f a s'
      | some (.error e, s') => some (.error e, s')
      | none => none := by
  change (p s).bind _ = _
  rcases p s with - | ⟨- | -, -⟩ <;> rfl

theorem run_try_catch (p : Parser α) (handler : ParseError → Parser α) (s : ParserState) :
    (tryCatch p handler) s = match p s with
      | some (.ok a, s') => some (.ok a, s')
      | some (.error e, s') => handler e s'
      | none => none := by
  change (p s).bind _ = _
  rcases p s with - | ⟨- | -, -⟩ <;> rfl

namespace Reads

variable {origin s : ParserState} {p : Parser α} {Q : α → ParserState → Prop}

theorem bind {f : α → Parser β} {R : α → ParserState → Prop} {Q : β → ParserState → Prop}
    (first : Reads origin p s R) (second : ∀ a s', R a s' → Reads origin (f a) s' Q) :
    Reads origin (p >>= f) s Q := by
  unfold Reads at first ⊢
  rw [run_bind]
  revert first
  rcases p s with - | ⟨e | a, s'⟩
  · exact id
  · exact id
  · exact second a s'

theorem mono {R : α → ParserState → Prop} (reads : Reads origin p s R)
    (imp : ∀ a s', R a s' → Q a s') : Reads origin p s Q := by
  unfold Reads at reads ⊢
  revert reads
  rcases p s with - | ⟨e | a, s'⟩
  · exact id
  · exact id
  · exact imp a s'

/-- What is read from a later state is read on the way from an earlier one. -/
theorem from_ {before : ParserState} (reads : Reads origin p s Q) (onward : Onward before origin) :
    Reads before p s Q := by
  unfold Reads at reads ⊢
  revert reads
  rcases p s with - | ⟨e | a, s'⟩
  · exact id
  · exact fun fails => { fails with onward := onward.trans fails.onward }
  · exact id

theorem map {f : α → β} {Q : β → ParserState → Prop}
    (reads : Reads origin p s fun a s' => Q (f a) s') : Reads origin (f <$> p) s Q := by
  rw [← bind_pure_comp]
  exact reads.bind fun a s' holds => holds

theorem discard {Q : Unit → ParserState → Prop} (reads : Reads origin p s fun _ s' => Q () s') :
    Reads origin (discard p) s Q :=
  reads.map

theorem ite {condition : Prop} [Decidable condition] {p q : Parser α}
    (yes : condition → Reads origin p s Q) (no : ¬condition → Reads origin q s Q) :
    Reads origin (if condition then p else q) s Q := by
  split
  · exact yes (by assumption)
  · exact no (by assumption)

/-- What a reader fails with can be read on from. -/
theorem tryCatch (before : ParserState) {handler : ParseError → Parser α}
    {R : α → ParserState → Prop} (reads : Reads before p s R) (imp : ∀ a s', R a s' → Q a s')
    (handled : ∀ e s', Fails before e s' → Reads origin (handler e) s' Q) :
    Reads origin (tryCatch p handler) s Q := by
  unfold Reads at reads ⊢
  rw [run_try_catch]
  revert reads
  rcases p s with - | ⟨e | a, s'⟩
  · exact id
  · exact handled e s'
  · exact imp a s'

/-- A change of the state behind `p` that reading does not notice. -/
theorem restoring {before : ParserState} {restore : ParserState → ParserState}
    (reads : Reads before p s fun a s' => Q a (restore s'))
    (fails : ∀ e s', Fails before e s' → Fails origin e (restore s')) :
    Reads origin (Parser.restoring restore p) s Q := by
  unfold Reads at reads ⊢
  have run : Parser.restoring restore p s = (p s).bind fun out => some (out.1, restore out.2) := rfl
  rw [run]
  revert reads
  rcases p s with - | ⟨e | a, s'⟩
  · exact id
  · exact fails e s'
  · exact id

/-! What a reader says about the state. -/

variable {f : Token → Parser β} {Q : β → ParserState → Prop}

theorem current (reads : Reads origin (f s.token) s Q) :
    Reads origin (Parser.current >>= f) s Q := reads

theorem ahead {k : Nat} (reads : Reads origin (f (s.stream.peek k)) s Q) :
    Reads origin (Parser.ahead k >>= f) s Q := reads

theorem get {f : ParserState → Parser β} (reads : Reads origin (f s) s Q) :
    Reads origin (MonadState.get >>= f) s Q := reads

theorem remaining {f : Nat → Parser β} (reads : Reads origin (f (s.tokens.size - s.place)) s Q) :
    Reads origin (Parser.remaining >>= f) s Q := reads

theorem test {kind : TokenKind} {f : Bool → Parser β}
    (reads : Reads origin (f (decide (s.token.kind = kind))) s Q) :
    Reads origin (Parser.check kind >>= f) s Q := reads

theorem check {kind : TokenKind} {f : Bool → Parser β}
    (yes : s.token.kind = kind → Reads origin (f true) s Q)
    (no : s.token.kind ≠ kind → Reads origin (f false) s Q) :
    Reads origin (Parser.check kind >>= f) s Q := by
  refine .test ?_
  by_cases same : s.token.kind = kind
  · rw [decide_eq_true same]
    exact yes same
  · rw [decide_eq_false same]
    exact no same

theorem checkOperator {op : String} {f : Bool → Parser β}
    (yes : s.token.kind = .operator → s.token.text = op → Reads origin (f true) s Q)
    (no : Reads origin (f false) s Q) :
    Reads origin (Parser.checkOperator op >>= f) s Q := by
  change Reads origin (f (s.token.isOperator op)) s Q
  cases same : s.token.isOperator op with
  | false => exact no
  | true =>
    simp only [Token.isOperator, Bool.and_eq_true, decide_eq_true_eq, beq_iff_eq] at same
    exact yes same.1 same.2

end Reads

end PhpAnalyser
