import PhpAnalyser.Proofs.Replay.Forms
/-!
Loops that end in front of other tokens in the other text: the statements of a body and the labels
of a switch.
-/
namespace PhpAnalyser

variable {α β : Type}

/-- Each round of a loop either ends it where it stands, or takes tokens up to one that seals them
and is read again in the other text. -/
def Rounds [Renumber β] (W : Overlap) (k : Bool) (step step' : β → Parser (ForInStep β)) : Prop :=
  ∀ b s r s₁, step b s = some (.ok r, s₁) → s₁.errors = [] →
    (r = .done b ∧ s₁ = s) ∨
    ∃ c, r = .yield c ∧ s.errors = [] ∧ s₁.tokens = s.tokens ∧ Sealed s s₁ ∧
      ∀ t, Beside W k s t → s₁.place ≤ W.stop → Follows W k (step' (W.shift b)) t (W.shift r) s₁

namespace Rounds

variable [Renumber β] {W : Overlap} {k : Bool} {step step' : β → Parser (ForInStep β)}
  {s s' : ParserState}

/-- The whole loop seals what it takes, and it is read again where the loop of the other text is
over at its end. -/
theorem iterate (rounds : Rounds W k step step') {fuel : Nat} {b b' : β}
    (run : Parser.iterate step fuel b s = some (.ok b', s')) (clean : s'.errors = []) :
    s.errors = [] ∧ s'.tokens = s.tokens ∧ Reach.resting.Ends s s' ∧
      ∀ fuel' t, (W.Roomy → fuel ≤ fuel') → Beside W k s t → s'.place ≤ W.stop →
        (∀ b t', Beside W k s' t' → step' (W.shift b) t' = some (.ok (.done (W.shift b)), t')) →
          Follows W k (Parser.iterate step' fuel' (W.shift b)) t (W.shift b') s' := by
  induction fuel generalizing b s with
  | zero => cases run
  | succ fuel ih =>
    obtain ⟨r, s₁, round, rest⟩ := ok_of_bind run
    have short {fuel' : Nat} (enough : W.Roomy → fuel + 1 ≤ fuel') (none : fuel' = 0)
        (t : ParserState) : Follows W k (Parser.iterate step' fuel' (W.shift b)) t (W.shift b') s' := by
      subst none
      exact .inr ⟨rfl, fun roomy => nomatch enough roomy⟩
    have start : s₁.errors = [] := by
      cases r with
      | done _ => cases rest; exact clean
      | yield _ => exact (ih rest).1
    rcases rounds b s r s₁ round start with ⟨rfl, rfl⟩ | ⟨c, rfl, first, tokens, closes, again⟩
    · cases rest
      refine ⟨clean, rfl, .inl rfl, fun fuel' t enough beside low beyond => ?_⟩
      cases fuel' with
      | zero => exact short enough rfl t
      | succ fuel' =>
        exact Follows.bind (a := .done (W.shift b')) (.inl ⟨t, beyond b' t beside, beside⟩) fun t' beside' =>
          .inl ⟨t', rfl, beside'⟩
    · obtain ⟨-, tokens', ends, later⟩ := ih rest
      have whole : Reach.closing.Ends s s' := Reach.Ends.rest closes ends (Nat.le_of_lt closes.place_lt) tokens'
      refine ⟨first, tokens'.trans tokens, .inr whole, fun fuel' t enough beside inside beyond => ?_⟩
      cases fuel' with
      | zero => exact short enough rfl t
      | succ fuel' =>
        exact (again t beside (Nat.le_trans ends.place_le inside)).bind fun t₁ beside₁ =>
          later fuel' t₁ (fun roomy => Nat.le_of_succ_le_succ (enough roomy)) beside₁ inside beyond

theorem repeatFrom (rounds : Rounds W k step step') {b b' : β}
    (run : Parser.repeatFrom b step s = some (.ok b', s')) (clean : s'.errors = []) :
    s.errors = [] ∧ s'.tokens = s.tokens ∧ Reach.resting.Ends s s' ∧
      ∀ t, Beside W k s t → s'.place ≤ W.stop →
      (∀ b t', Beside W k s' t' → step' (W.shift b) t' = some (.ok (.done (W.shift b)), t')) →
        Follows W k (Parser.repeatFrom (W.shift b) step') t (W.shift b') s' := by
  have run : Parser.iterate step (s.stream.remaining + 1) b s = some (.ok b', s') := run
  obtain ⟨first, tokens, ends, follows⟩ := rounds.iterate run clean
  refine ⟨first, tokens, ends, fun t beside low beyond => ?_⟩
  exact follows (t.stream.remaining + 1) t (fun roomy => Nat.succ_le_succ (beside.remaining_le roomy))
    beside low beyond

end Rounds

def Until (W : Overlap) (k : Bool) (p q : Parser (List Nat)) (beyond : Token → Prop) : Prop :=
  ∀ s ids s', p s = some (.ok ids, s') → s'.errors = [] →
    s.errors = [] ∧ s'.tokens = s.tokens ∧ Reach.resting.Ends s s' ∧
      ∀ t, Beside W k s t → s'.place ≤ W.stop → (∀ t', Beside W k s' t' → beyond t'.token) →
        Follows W k q t (W.shift ids) s'

section Statements

variable {W : Overlap} {k : Bool} {s s' : ParserState} {g g' : Nested} {stop stop' : Token → Bool}

def listed (g : Nested) : Parser (List Nat) := do return (← g.statement).toList

theorem replays_listed (tracks : Tracks W g g') (s : ParserState) :
    Replays W k k .closing (listed g) (listed g') s :=
  .then_ (tracks.statement k s) fun id _ _ => .pure (by cases id <;> rfl)

theorem statements_rounds (tracks : Tracks W g g')
    (begins : ∀ s ids s', listed g s = some (.ok ids, s') → stop s.token = false → stop' s.token = false) :
    Rounds W k (listStep stop (listed g)) (listStep stop' (listed g')) := by
  intro items s r s₁ run clean
  by_cases ends : s.token.kind = .eof ∨ stop s.token = true
  · rw [list_step_ends ends] at run
    cases run
    exact .inl ⟨rfl, rfl⟩
  obtain ⟨more, goes⟩ := not_or.mp ends
  have goes : stop s.token = false := by simpa using goes
  rw [list_step_run more goes] at run
  rcases read : listed g s with - | ⟨e | ids, s₂⟩ <;> rw [read] at run
  · cases run
  · exact absurd clean (Replays.resume_noted run)
  · cases run
    obtain ⟨passage, closes, follows⟩ := replays_listed (k := k) tracks s ids s₁ read clean
    refine .inr ⟨_, rfl, passage.clean, passage.tokens, closes, fun t beside low => ?_⟩
    have inside : s.place < W.stop := Nat.lt_of_lt_of_le closes.place_lt low
    have token := beside.token inside
    exact (follows t beside inside low).listStep (by rwa [token]) (by rw [token]; exact begins s ids s₁ read goes)

/-- Statements end at the mark of the end or at a token that stops them. -/
theorem statements_end (tracks : Tracks W g g') : Succeeds (Parser.statements g stop) s fun _ s' =>
    s'.errors = [] → s'.token.kind = .eof ∨ stop s'.token = true := by
  refine (Succeeds.recovering_clean (I := fun _ _ => True) (fun _ => trivial)
    fun ids s₁ more s₂ _ _ run clean => ?_).mono fun ids s' ends clean => (ends clean).2
  exact ⟨(replays_listed (k := true) tracks s₁ more s₂ run clean).1.clean, fun _ => trivial⟩

/-- Statements are read again up to a place where those of the other text end. -/
theorem statements_until (tracks : Tracks W g g')
    (begins : ∀ s ids s', listed g s = some (.ok ids, s') → stop s.token = false → stop' s.token = false) :
    Until W k (Parser.statements g stop) (Parser.statements g' stop')
      fun t => t.kind = .eof ∨ stop' t = true := by
  intro s ids s' run clean
  obtain ⟨first, tokens, ends, follows⟩ :=
    (statements_rounds (k := k) tracks begins).repeatFrom run clean
  exact ⟨first, tokens, ends, fun t beside low beyond =>
    follows t beside low fun b t' beside' => list_step_ends (beyond t' beside')⟩

end Statements

section Labels

variable {W : Overlap} {k : Bool} {s s' : ParserState} {g g' : Nested} (tracks : Tracks W g g')
  (marked : ∀ t, W.own[W.stop]? = some t ∨ W.whole[W.stop + W.gap]? = some t → Parser.endsLabel t = true)
include tracks marked

/-- The statements of a label end in front of the next label or of what ends the switch. -/
theorem label_statements : Replays W k k .resting (Parser.statements g Parser.endsLabel)
    (Parser.statements g' Parser.endsLabel) s := by
  intro ids s' run clean
  obtain ⟨-, -, ends, follows⟩ :=
    statements_until (k := k) tracks (fun _ _ _ _ goes => goes) s ids s' run clean
  refine ⟨(Replays.statements (k := k) tracks _ ids s' run clean).1, ends, fun t beside _ leaves => ?_⟩
  refine follows t beside leaves fun t' beside' => ?_
  rcases Nat.lt_or_eq_of_le leaves with inside | last
  · rw [beside'.token inside]
    exact statements_end tracks ids s' run clean
  · refine .inr (marked t'.token (.inr ?_))
    rw [← last, ← beside'.place, ← beside'.whole]
    exact t'.token_at

theorem switch_label : Replays W k true .closing (Parser.switchLabel g) (Parser.switchLabel g') s := by
  refine .current <| .bind (Replays.labelTest tracks) ?_
  rintro ⟨isDefault, test⟩ s -
  exact .then_ Replays.labelMark fun _ _ _ => .then_ (label_statements tracks marked) fun inner _ _ =>
    .finish (Renumber.shift_append _ test inner).symm rfl

omit tracks marked in
/-- A label starts with its word. -/
theorem label_word : Succeeds (Parser.switchLabel g) s fun _ _ =>
    s.token.kind = .keyword .case_ ∨ s.token.kind = .keyword .default_ := by
  refine .current <| .bind (R := fun _ _ => _) ?_ fun _ _ word _ _ _ => word
  exact .current <| .ite (fun is => .skip <| .then_ fun _ _ => .pure (.inl is))
    fun _ => .ite (fun is => .skip <| .pure (.inr is)) fun _ => .unexpected

omit tracks marked in
theorem label_step_ends {closing : TokenKind} {labels : List Nat} (is : s.token.kind = closing) :
    labelStep g closing labels s = some (.ok (.done labels), s) := by
  change (if decide (s.token.kind = closing) = true then _ else _ : Parser (ForInStep (List Nat))) s = _
  rw [if_pos (decide_eq_true is)]
  rfl

omit tracks marked in
theorem label_step_run {closing : TokenKind} {labels : List Nat} (other : s.token.kind ≠ closing) :
    labelStep g closing labels s =
      (do return .yield (labels ++ [← Parser.switchLabel g]) : Parser (ForInStep (List Nat))) s := by
  change (if decide (s.token.kind = closing) = true then _ else _ : Parser (ForInStep (List Nat))) s = _
  rw [if_neg (by simpa using other)]

theorem labels_rounds {closing closing' : TokenKind} (apart : closing' ≠ .keyword .case_)
    (apart' : closing' ≠ .keyword .default_) :
    Rounds W k (labelStep g closing) (labelStep g' closing') := by
  intro labels s r s₁ run clean
  by_cases ends : s.token.kind = closing
  · rw [label_step_ends ends] at run
    cases run
    exact .inl ⟨rfl, rfl⟩
  rw [label_step_run ends] at run
  obtain ⟨label, s₂, read, run⟩ := ok_of_bind run
  cases run
  obtain ⟨passage, closes, follows⟩ := switch_label (k := k) tracks marked label s₁ read clean
  refine .inr ⟨_, rfl, passage.clean, passage.tokens, closes, fun t beside low => ?_⟩
  have inside : s.place < W.stop := Nat.lt_of_lt_of_le closes.place_lt low
  have other : t.token.kind ≠ closing' := by
    rw [beside.token inside]
    rcases label_word label s₁ read with is | is <;> rw [is]
    · exact apart.symm
    · exact apart'.symm
  unfold Follows
  rw [label_step_run other]
  refine Follows.bind (follows t beside inside low) fun t₁ beside₁ => .inl ⟨t₁, ?_, ?_⟩
  · exact congrArg (fun labels => some (Except.ok (ForInStep.yield labels), t₁)) (Renumber.shift_snoc _ labels label)
  · exact { beside₁ with last := fun _ => beside₁.last rfl }

/-- Labels are read again up to a place where those of the other text end. -/
theorem labels_until {closing closing' : TokenKind} (apart : closing' ≠ .keyword .case_)
    (apart' : closing' ≠ .keyword .default_) :
    Until W k (switchBody g closing) (switchBody g' closing') fun t => t.kind = closing' := by
  intro s labels s' run clean
  obtain ⟨u, s₁, eaten, rest⟩ := ok_of_bind run
  obtain ⟨first, tokens, ends, follows⟩ :=
    (labels_rounds (k := k) tracks marked apart apart').repeatFrom rest clean
  have edge (t : Token) (found : W.own[W.stop]? = some t ∨ W.whole[W.stop + W.gap]? = some t) :
      t.kind ≠ .semicolon := by
    intro is
    have ends := marked t found
    rw [Parser.endsLabel, is] at ends
    cases ends
  obtain ⟨passage, ends₁, follows₁⟩ :=
    (Replays.eat_edge (k := k) edge rfl rfl).discarded u s₁ eaten first
  refine ⟨passage.clean, tokens.trans passage.tokens, ends₁.rest ends passage.place_le tokens,
    fun t beside inside beyond => ?_⟩
  have low := Nat.le_trans ends.place_le inside
  exact (follows₁ t beside (Nat.le_trans passage.place_le low) low).bind fun t₁ beside₁ =>
    follows t₁ beside₁ inside fun b t' beside' => label_step_ends (beyond t' beside')

end Labels

end PhpAnalyser
