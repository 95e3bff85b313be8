import PhpAnalyser.Proofs.Grammar.Control
import PhpAnalyser.Proofs.Lockstep.Primitive
/-!
What readers side by side do that repeat others, and how they go on behind an error.
-/
namespace PhpAnalyser

variable {α β γ δ : Type} {E : Excerpt} {s t : ParserState}

section Loops

variable {step : β → Parser (ForInStep β)} {step' : γ → Parser (ForInStep γ)}
  {R Q : β → ParserState → γ → ParserState → Prop}

def Stepping (E : Excerpt) (R : β → ParserState → γ → ParserState → Prop)
    (near : ParserState → ParserState → Prop) (Q : β → ParserState → γ → ParserState → Prop) :
    ForInStep β → ParserState → Outcome (ForInStep γ) → Prop
  | .yield b, s, (.ok (.yield c), t) => Twin E s t ∧ R b s c t
  | .done b, s, (.ok (.done c), t) => near s t ∧ Q b s c t
  | _, _, _ => False

theorem Meets.iterate {near : ParserState → ParserState → Prop}
    (each : ∀ b c s t, Twin E s t → R b s c t →
      Meets E (step b) (step' c) s t (Stepping E R near Q)) (fuel fuel' : Nat) (b : β) (c : γ)
    (twin : Twin E s t) (start : R b s c t) :
    Meets E (Parser.iterate step fuel b) (Parser.iterate step' fuel' c) s t (Both near Q) := by
  induction fuel generalizing fuel' b c s t with
  | zero => exact fun _ _ => trivial
  | succ fuel ih =>
    cases fuel' with
    | zero => exact fun _ no => nomatch no
    | succ fuel' =>
      refine (each b c s t twin start).sequel ?_ ?_
      · rintro (b | b) s' (c | c) t' - holds
        · exact .pure holds
        · exact holds.elim
        · exact holds.elim
        · exact ih fuel' b c holds.1 holds.2
      · rintro (b | b) s' e t' - no
        · exact no.elim
        · exact no.elim

theorem Meets.loop {near : ParserState → ParserState → Prop} {b : β} {c : γ} (twin : Twin E s t)
    (start : R b s c t)
    (each : ∀ b c s t, Twin E s t → R b s c t →
      Meets E (step b) (step' c) s t (Stepping E R near Q)) :
    Meets E (Parser.repeatFrom b step) (Parser.repeatFrom c step') s t (Both near Q) :=
  Meets.iterate each _ _ b c twin start

/-- One step of two loops of which the first may run out of tokens. -/
def Straying (E : Excerpt) (R : β → ParserState → γ → ParserState → Prop) :
    ForInStep β → ParserState → Outcome (ForInStep γ) → Prop :=
  Closes E Freely fun r s r' t => match r, r' with
    | .yield b, .yield c => R b s c t
    | .done b, .done c => R b s c t
    | _, _ => False

theorem idle_iterate {step : β → Parser (ForInStep β)}
    (idle : ∀ b s, s.token.kind = .eof → Idle (step b) s) (fuel : Nat) (b : β)
    (ends : s.token.kind = .eof) : Idle (Parser.iterate step fuel b) s := by
  induction fuel generalizing b s with
  | zero => trivial
  | succ fuel ih =>
    refine (idle b s ends).bind ?_
    rintro (b | b) s' ends
    · exact Quiet.idle (.pure b) ends
    · exact ih b ends

theorem Idle.repeatFrom {step : β → Parser (ForInStep β)} {b : β}
    (idle : ∀ b s, s.token.kind = .eof → Idle (step b) s) (ends : s.token.kind = .eof) :
    Idle (Parser.repeatFrom b step) s :=
  idle_iterate idle _ b ends

theorem starved_iterate {step : β → Parser (ForInStep β)}
    (starved : ∀ b s, s.token.kind = .eof → Starved (step b) s) (fuel : Nat) (b : β)
    (ends : s.token.kind = .eof) : Starved (Parser.iterate step fuel b) s := by
  cases fuel with
  | zero => trivial
  | succ fuel => exact (starved b s ends).bind

theorem Starved.repeatFrom {step : β → Parser (ForInStep β)} {b : β}
    (starved : ∀ b s, s.token.kind = .eof → Starved (step b) s) (ends : s.token.kind = .eof) :
    Starved (Parser.repeatFrom b step) s :=
  starved_iterate starved _ b ends

/-- A loop whose first reader may run out of tokens, and is done then. -/
theorem Meets.stray {b : β} {c : γ} (twin : Twin E s t) (start : R b s c t)
    (each : ∀ b c s t, Twin E s t → R b s c t → Meets E (step b) (step' c) s t (Straying E R))
    (idle : ∀ b s, s.token.kind = .eof → Idle (step b) s) :
    Meets E (Parser.repeatFrom b step) (Parser.repeatFrom c step') s t (Closes E Freely R) := by
  suffices ∀ fuel fuel' b c s t, Twin E s t → R b s c t →
      Meets E (Parser.iterate step fuel b) (Parser.iterate step' fuel' c) s t (Closes E Freely R)
    from this _ _ b c s t twin start
  intro fuel
  induction fuel with
  | zero => exact fun _ _ _ _ _ _ _ _ _ => trivial
  | succ fuel ih =>
    intro fuel' b c s t twin holds
    cases fuel' with
    | zero => exact fun _ no => nomatch no
    | succ fuel' =>
      refine (each b c s t twin holds).fall ?_ ?_
      · rintro (b | b) s' ends
        · exact (Quiet.pure b).idle ends
        · exact idle_iterate idle fuel b ends
      · rintro (b | b) s' (c | c) t' twin holds
        · exact .pure (.inr ⟨twin.toNear, holds⟩)
        · exact holds.elim
        · exact holds.elim
        · exact ih fuel' b c s' t' twin holds

def Faltering (E : Excerpt) (R Q : β → ParserState → γ → ParserState → Prop) (r : ForInStep β)
    (s : ParserState) (out : Outcome (ForInStep γ)) : Prop :=
  (s.token.kind = .eof ∧ ∃ b, r = .yield b) ∨ Stepping E R (Twin E) Q r s out

/-- A loop whose first reader cannot go on when the tokens have run out. -/
theorem Meets.falter {b : β} {c : γ} (twin : Twin E s t) (start : R b s c t)
    (each : ∀ b c s t, Twin E s t → R b s c t → Meets E (step b) (step' c) s t (Faltering E R Q))
    (starved : ∀ b s, s.token.kind = .eof → Starved (step b) s) :
    Meets E (Parser.repeatFrom b step) (Parser.repeatFrom c step') s t (Steadily E Q) := by
  suffices ∀ fuel fuel' b c s t, Twin E s t → R b s c t →
      Meets E (Parser.iterate step fuel b) (Parser.iterate step' fuel' c) s t (Steadily E Q)
    from this _ _ b c s t twin start
  intro fuel
  induction fuel with
  | zero => exact fun _ _ _ _ _ _ _ _ _ => trivial
  | succ fuel ih =>
    intro fuel' b c s t twin holds
    cases fuel' with
    | zero => exact fun _ no => nomatch no
    | succ fuel' =>
      refine (each b c s t twin holds).sequel ?_ ?_
      · rintro r s' r' t' - (⟨ends, b, rfl⟩ | holds)
        · exact .of_starved (starved_iterate starved fuel b ends)
        · rcases r with b | b <;> rcases r' with c | c
          · exact .pure holds
          · exact holds.elim
          · exact holds.elim
          · exact ih fuel' b c s' t' holds.1 holds.2
      · rintro r s' e t' - (⟨ends, b, rfl⟩ | holds)
        · exact (starved_iterate starved fuel b ends).answers
        · rcases r with b | b <;> exact holds.elim

end Loops

theorem comma_separated_steady {item : Parser α} (steady : Steady E item Any) :
    Steady E (Parser.commaSeparated item) Any := by
  intro s t twin
  refine .loop (R := Any) twin trivial fun items items' s t twin _ => ?_
  refine steady.then twin fun a s b t twin => ?_
  refine (eat_steady (by decide)).same twin fun eaten s t twin => ?_
  exact .ite .rfl (fun _ => .pure ⟨twin, trivial⟩) fun _ => .pure ⟨twin, trivial⟩

theorem comma_list_steady {close : TokenKind} {item : Parser α} (steady : Steady E item Any) :
    Steady E (Parser.commaList close item) Any := by
  intro s t twin
  refine .loop (R := Any) twin trivial fun items items' s t twin _ => ?_
  refine .check twin (fun _ => .pure ⟨twin, trivial⟩) fun _ => ?_
  refine steady.then twin fun a s b t twin => ?_
  refine (eat_steady (by decide)).same twin fun eaten s t twin => ?_
  exact .ite .rfl (fun _ => .pure ⟨twin, trivial⟩) fun _ => .pure ⟨twin, trivial⟩

def Keeps (p : Parser α) : Prop := ∀ s r s', p s = some (r, s') → s'.errors = s.errors

theorem Keeps.bind {p : Parser α} {f : α → Parser β} (first : Keeps p) (next : ∀ a, Keeps (f a)) :
    Keeps (p >>= f) := by
  intro s r s' run
  rw [run_bind] at run
  rcases step : p s with - | ⟨e | a, s₁⟩ <;> rw [step] at run
  · cases run
  · cases run
    exact first s _ _ step
  · exact (next a s₁ r s' run).trans (first s _ _ step)

theorem Keeps.iterate {step : β → Parser (ForInStep β)} (each : ∀ b, Keeps (step b)) (fuel : Nat)
    (b : β) : Keeps (Parser.iterate step fuel b) := by
  induction fuel generalizing b with
  | zero => exact fun _ _ _ no => nomatch no
  | succ fuel ih =>
    refine (each b).bind ?_
    rintro (b | b)
    · rintro s r s' ⟨⟩
      rfl
    · exact ih b

theorem skip_keeps : Keeps Parser.skip := by
  rintro s r s' ⟨⟩
  exact errors_advance

theorem Keeps.pure (a : α) : Keeps (pure a) := by
  rintro s r s' ⟨⟩
  rfl

theorem Keeps.current {f : Token → Parser α} (each : ∀ token, Keeps (f token)) :
    Keeps (Parser.current >>= f) :=
  fun s r s' run => each s.token s r s' run

theorem Keeps.repeatFrom {step : β → Parser (ForInStep β)} {b : β} (each : ∀ b, Keeps (step b)) :
    Keeps (Parser.repeatFrom b step) :=
  fun s r s' run => Keeps.iterate each _ b s r s' run

theorem synchronize_keeps : Keeps Parser.synchronize := by
  refine skip_keeps.bind fun _ => .repeatFrom fun _ => .current fun token => ?_
  have skips (r : ForInStep Unit) : Keeps (do Parser.skip; return r) :=
    skip_keeps.bind fun _ => .pure r
  cases token.kind with
  | eof => exact .pure _
  | rightBrace => exact .pure _
  | keyword word =>
    dsimp only
    split
    · exact .pure _
    · exact skips _
  | _ => exact skips _

theorem synchronize_meets (twin : Twin E s t) (other : s.token.kind ≠ .semicolon) :
    Meets E Parser.synchronize Parser.synchronize s t (Both (Near E) Any) := by
  refine .skip twin other fun twin => .loop (R := Any) twin trivial fun _ _ s t twin _ => ?_
  refine .current ?_
  rw [← twin.like.kind]
  cases kind : s.token.kind with
  | eof => exact absurd kind twin.more
  | rightBrace => exact .pure ⟨twin.toNear, trivial⟩
  | semicolon => exact .take twin fun near => .pure ⟨near, trivial⟩
  | closeTag => exact .take twin fun near => .pure ⟨near, trivial⟩
  | keyword word =>
    refine .ite .rfl (fun _ => .pure ⟨twin.toNear, trivial⟩) fun _ => ?_
    exact .skip twin (by rw [kind]; nofun) fun twin => .pure ⟨twin, trivial⟩
  | _ => exact .skip twin (by rw [kind]; nofun) fun twin => .pure ⟨twin, trivial⟩

/-- Behind its semicolon a text of its own has nothing to skip. -/
theorem synchronize_idle (twin : Twin E s t) (semicolon : s.token.kind = .semicolon) :
    Idle Parser.synchronize s := by
  refine Spends.bind (Q := fun _ s' => s' = s.advance) rfl ?_
  rintro _ _ rfl
  refine Spends.mono (Idle.repeatFrom ?_ (twin.last semicolon)) fun _ s' holds =>
    ⟨holds.1, holds.2.trans errors_advance⟩
  intro _ s ends
  refine Idle.current ?_
  rw [ends]
  exact (Quiet.pure _).idle ends

/-- The first reader went on behind its semicolon, and the second somewhere else. -/
def Mislaid (E : Excerpt) (s t : ParserState) : Prop := E.Slipped s.errors ∧ E.Told t.errors

theorem recover_meets {e f : ParseError} {depth depth' : Nat} (twin : Twin E s t)
    (same : depth = depth') (own : e.fault.isRecoverable) (whole : f.fault.isRecoverable)
    (span : e.span = s.token.span) (span' : f.span = t.token.span) :
    Meets E (Parser.recover depth e) (Parser.recover depth' f) s t (Closes E (Mislaid E) Any) := by
  let noted : ParserState := { s with errors := s.errors ++ [e], depth }
  let noted' : ParserState := { t with errors := t.errors ++ [f], depth := depth' }
  have told : E.Told noted'.errors := twin.told_here (by simp [noted']) span'
  have twin' : Twin E noted noted' :=
    { twin with depth := same, told := fun _ => told }
  intro out run
  rw [Parser.recover, if_pos own]
  rw [Parser.recover, if_pos whole] at run
  change Parser.synchronize noted' = some out at run
  change Answers E _ (Parser.synchronize noted) out
  by_cases semicolon : s.token.kind = .semicolon
  · refine (synchronize_idle twin' semicolon).answers fun _ s' ends errors => .inl ⟨ends, ?_, ?_⟩
    · refine ⟨e, ?_, s.token, ?_, semicolon, span⟩
      · rw [errors]
        exact List.mem_append_right _ List.mem_cons_self
      · exact twin.own ▸ s.token_mem
    · rw [synchronize_keeps _ _ _ run]
      exact told
  · exact (synchronize_meets twin' semicolon out run).mono fun _ s' holds => .inr holds

theorem recover_grows {e : ParseError} {depth : Nat} {r : Except ParseError Unit} {s' : ParserState}
    (run : Parser.recover depth e s = some (r, s')) : s.errors <+: s'.errors := by
  unfold Parser.recover at run
  split at run
  · have kept := synchronize_keeps _ _ _ run
    rw [kept]
    exact List.prefix_append ..
  · cases run
    exact List.prefix_rfl

def listStep (stop : Token → Bool) (item : Parser (List Nat)) (items : List Nat) :
    Parser (ForInStep (List Nat)) := do
  let s ← get
  if s.stream.atEnd || stop s.stream.current then return .done items
  tryCatch (do return .yield (items ++ (← item))) fun error => do
    Parser.recover s.depth error
    return .yield items

theorem recovering_eq (stop : Token → Bool) (item : Parser (List Nat)) :
    Parser.recovering stop item = Parser.repeatFrom [] (listStep stop item) := rfl

def Going (r : ForInStep (List Nat)) (_ : ParserState) (r' : ForInStep (List Nat))
    (_ : ParserState) : Prop :=
  (∃ ids, r = .yield ids) ∧ ∃ ids, r' = .yield ids

def resume (depth : Nat) (items : List Nat) (error : ParseError) :
    Parser (ForInStep (List Nat)) := do
  Parser.recover depth error
  return .yield items

theorem resume_fatal {e : ParseError} {depth : Nat} {items : List Nat}
    (fatal : ¬e.fault.isRecoverable) : resume depth items e s = some (.error e, s) := by
  simp only [resume, Parser.recover, if_neg fatal]
  rfl

theorem resume_grows {e : ParseError} {depth : Nat} {items : List Nat}
    {out : Outcome (ForInStep (List Nat))} (run : resume depth items e s = some out) :
    s.errors <+: out.2.errors := by
  rw [resume, run_bind] at run
  rcases again : Parser.recover depth e s with - | ⟨r, s'⟩ <;> rw [again] at run
  · cases run
  · have grows := recover_grows again
    rcases r with e | u <;> cases run <;> exact grows

theorem resume_meets {e f : ParseError} {depth depth' : Nat} {items items' : List Nat}
    (twin : Twin E s t) (same : depth = depth') (own : e.fault.isRecoverable)
    (whole : f.fault.isRecoverable) (span : e.span = s.token.span)
    (span' : f.span = t.token.span) :
    Meets E (resume depth items e) (resume depth' items' f) s t (Closes E (Mislaid E) Going) := by
  refine (recover_meets twin same own whole span span').sequel ?_ ?_
  · rintro _ s' _ t' - (⟨ends, slip⟩ | ⟨near, -⟩)
    · exact .pure (.inl ⟨ends, slip⟩)
    · exact .pure (.inr ⟨near, ⟨_, rfl⟩, _, rfl⟩)
  · rintro _ s' e t' - (⟨ends, slip⟩ | no)
    · exact .inl ⟨ends, slip⟩
    · exact no.elim

theorem list_step_run {stop : Token → Bool} {item : Parser (List Nat)} {items : List Nat}
    (more : s.token.kind ≠ .eof) (goes : stop s.token = false) :
    listStep stop item items s = match item s with
      | some (.ok more, s') => some (.ok (.yield (items ++ more)), s')
      | some (.error e, s') => resume s.depth items e s'
      | none => none := by
  have goes : (s.stream.atEnd || stop s.stream.current) = false := by
    rw [at_end, decide_eq_false more]
    exact goes
  change (if _ then _ else _ : Parser (ForInStep (List Nat))) s = _
  rw [if_neg (by simp [goes]), run_try_catch, run_bind]
  rcases item s with - | ⟨e | a, s'⟩ <;> rfl

theorem list_step_ends {stop : Token → Bool} {item : Parser (List Nat)} {items : List Nat}
    (ends : s.token.kind = .eof ∨ stop s.token = true) :
    listStep stop item items s = some (.ok (.done items), s) := by
  have stops : (s.stream.atEnd || stop s.stream.current) = true := by
    rw [at_end, Bool.or_eq_true, decide_eq_true_eq]
    exact ends
  change (if _ then _ else _ : Parser (ForInStep (List Nat))) s = _
  rw [if_pos stops]
  rfl

theorem idle_list_step {stop : Token → Bool} {item : Parser (List Nat)} {items : List Nat}
    (ends : s.token.kind = .eof) : Idle (listStep stop item items) s := by
  unfold Idle Spends
  rw [list_step_ends (.inl ends)]
  exact ⟨ends, rfl⟩

/-- An item of two lists. Either both are read to an end, or only the second was given up, or
both were, at the same token. -/
theorem list_step_meets {stop stop' : Token → Bool} {item item' : Parser (List Nat)}
    {items items' : List Nat} {Q : List Nat → ParserState → Outcome (List Nat) → Prop}
    {P : ForInStep (List Nat) → ParserState → Outcome (ForInStep (List Nat)) → Prop}
    (twin : Twin E s t) (goes : stop s.token = false) (goes' : stop' t.token = false)
    (meets : Meets E item item' s t Q)
    (went : ∀ more s' more' t', Q more s' (.ok more', t') →
      P (.yield (items ++ more)) s' (.ok (.yield (items' ++ more')), t'))
    (failed : ∀ more s' e t' out, Q more s' (.error e, t') → resume t.depth items' e t' = some out →
      P (.yield (items ++ more)) s' out)
    (resumed : ∀ r s' out, Closes E (Mislaid E) Going r s' out → P r s' out) :
    Meets E (listStep stop item items) (listStep stop' item' items') s t P := by
  intro out run
  rw [list_step_run twin.more goes]
  rw [list_step_run twin.more' goes'] at run
  rcases whole : item' t with - | ⟨r, t'⟩ <;> rw [whole] at run
  · cases run
  have answers := meets _ whole
  rcases own : item s with - | ⟨e | more, s'⟩ <;> rw [own] at answers
  · trivial
  · by_cases recoverable : e.fault.isRecoverable
    · cases r with
      | ok more' => exact (answers recoverable).elim
      | error f =>
        obtain ⟨twin', whole, span, span'⟩ := answers recoverable
        exact (resume_meets twin' twin.depth recoverable whole span span' out run).mono fun r s' =>
          resumed r s' out
    · change Answers E _ (resume s.depth items e s') out
      rw [resume_fatal recoverable]
      exact fun no => absurd no recoverable
  · cases r with
    | ok more' =>
      cases run
      exact went more s' more' t' answers
    | error f => exact failed more s' f t' out answers run

/-- The items of two lists, until the first text has no token left. -/
theorem recovering_free {stop : Token → Bool} {item item' : Parser (List Nat)}
    (alike : ∀ a b : Token, a.Like b → stop a = stop b)
    (free : ∀ s t, Twin E s t → Meets E item item' s t (Closes E Freely Any)) (twin : Twin E s t) :
    Meets E (Parser.recovering stop item) (Parser.recovering stop item') s t
      (Closes E Freely Any) := by
  refine .stray (R := Any) twin trivial (fun items items' s t twin _ => ?_) fun items s ends => ?_
  · change Meets E (listStep stop item items) (listStep stop item' items') s t _
    have same := alike _ _ twin.like
    cases stops : stop s.token with
    | true =>
      rw [stops] at same
      intro out run
      rw [list_step_ends (.inr same.symm)] at run
      rw [list_step_ends (.inr stops)]
      cases run
      exact .inr ⟨twin.toNear, trivial⟩
    | false =>
      rw [stops] at same
      refine list_step_meets twin stops same.symm (free s t twin) ?_ ?_ ?_
      · exact fun more s more' t holds => holds.imp_right fun both => ⟨both.1, trivial⟩
      · exact fun more s e t out holds _ => .inl ⟨(holds.resolve_right id).1, trivial⟩
      · rintro r s ⟨_ | r', t⟩ (⟨ends, -⟩ | both)
        · exact .inl ⟨ends, trivial⟩
        · exact both.elim
        · exact .inl ⟨ends, trivial⟩
        · obtain ⟨near, ⟨_, rfl⟩, _, rfl⟩ := both
          exact .inr ⟨near, trivial⟩
  · exact idle_list_step ends

end PhpAnalyser
