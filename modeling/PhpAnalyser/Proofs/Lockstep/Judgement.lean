import PhpAnalyser.Proofs.Grammar.Judgement
import PhpAnalyser.Proofs.Lockstep.State
/-!
What two readers do side by side, one at a stretch of its own and one at the same stretch of a
whole text: as long as the first does not run out of tokens, the second does the same. The rules
follow the ways in which readers are put together.
-/
namespace PhpAnalyser

abbrev Outcome (α : Type) := Except ParseError α × ParserState

variable {α β γ δ : Type} {E : Excerpt} {s t : ParserState}

def Both (near : ParserState → ParserState → Prop) (R : α → ParserState → β → ParserState → Prop)
    (a : α) (s : ParserState) : Outcome β → Prop
  | (.ok b, t) => near s t ∧ R a s b t
  | (.error _, _) => False

def Halted (E : Excerpt) (e : ParseError) (s : ParserState) : Outcome β → Prop
  | (.error f, t) =>
    Twin E s t ∧ f.fault.isRecoverable ∧ e.span = s.token.span ∧ f.span = t.token.span
  | (.ok _, _) => False

/-- Every success of the first reader is related by `P` to what came of the second, and every
failure that can be recovered from is one of the second too. -/
def Answers (E : Excerpt) (P : α → ParserState → Outcome β → Prop) :
    Option (Outcome α) → Outcome β → Prop
  | some (.ok a, s), out => P a s out
  | some (.error e, s), out => e.fault.isRecoverable → Halted E e s out
  | none, _ => True

/-- Two readers side by side. Nothing is said of a second reader that is stuck. -/
def Meets (E : Excerpt) (p : Parser α) (q : Parser β) (s t : ParserState)
    (P : α → ParserState → Outcome β → Prop) : Prop :=
  ∀ out, q t = some out → Answers E P (p s) out

/-- Every success of `p` has the property `Q`, and no failure can be recovered from. -/
def Spends (p : Parser α) (s : ParserState) (Q : α → ParserState → Prop) : Prop :=
  match p s with
  | some (.ok a, s') => Q a s'
  | some (.error e, _) => e.fault.isRecoverable = false
  | none => True

def Starved (p : Parser α) (s : ParserState) : Prop := Spends p s fun _ _ => False

def Idle (p : Parser α) (s : ParserState) : Prop :=
  Spends p s fun _ s' => s'.token.kind = .eof ∧ s'.errors = s.errors

def Quiet (p : Parser α) : Prop :=
  ∀ s r s', p s = some (r, s') → (∃ a, r = .ok a) ∧ Still s s'

def Any (_ : α) (_ : ParserState) (_ : β) (_ : ParserState) : Prop := True

def Same (a : α) (_ : ParserState) (b : α) (_ : ParserState) : Prop := a = b

def Steadily (E : Excerpt) (R : α → ParserState → β → ParserState → Prop) :
    α → ParserState → Outcome β → Prop :=
  Both (Twin E) R

/-- Both are at the same place, or no token is left to the first and they have parted as `parted`
says. -/
def Closes (E : Excerpt) (parted : ParserState → ParserState → Prop)
    (R : α → ParserState → β → ParserState → Prop) (a : α) (s : ParserState)
    (out : Outcome β) : Prop :=
  (s.token.kind = .eof ∧ parted s out.2) ∨ Both (Near E) R a s out

def Freely (_ _ : ParserState) : Prop := True

def Steady (E : Excerpt) (p : Parser α) (R : α → ParserState → α → ParserState → Prop) : Prop :=
  ∀ s t, Twin E s t → Meets E p p s t (Steadily E R)

/-- A reader that does the same in both texts as long as a token is left. -/
def Free (E : Excerpt) (p : Parser α) : Prop :=
  ∀ s t, Twin E s t → Meets E p p s t (Closes E Freely Any)

namespace Quiet

theorem pure (a : α) : Quiet (pure a) := by
  rintro s r s' run
  cases run
  exact ⟨⟨a, rfl⟩, .refl s⟩

theorem bind {p : Parser α} {f : α → Parser β} (first : Quiet p) (next : ∀ a, Quiet (f a)) :
    Quiet (p >>= f) := by
  intro s r s' run
  rw [run_bind] at run
  rcases step : p s with - | ⟨r₁, s₁⟩
  · rw [step] at run
    cases run
  · obtain ⟨⟨a, rfl⟩, still⟩ := first s r₁ s₁ step
    rw [step] at run
    obtain ⟨ok, still'⟩ := next a s₁ r s' run
    exact ⟨ok, still.trans still'⟩

theorem get {f : ParserState → Parser β} (next : ∀ s, Quiet (f s)) :
    Quiet (MonadState.get >>= f) :=
  fun s r s' run => next s s r s' run

theorem stuck : Quiet (Parser.stuck : Parser α) := fun _ _ _ run => nomatch run

end Quiet

namespace Spends

variable {p : Parser α} {Q : α → ParserState → Prop}

theorem bind {f : α → Parser β} {Q' : β → ParserState → Prop} (first : Spends p s Q)
    (next : ∀ a s', Q a s' → Spends (f a) s' Q') : Spends (p >>= f) s Q' := by
  unfold Spends at first ⊢
  rw [run_bind]
  revert first
  rcases p s with - | ⟨e | a, s'⟩
  · exact id
  · exact id
  · exact next a s'

theorem mono {Q' : α → ParserState → Prop} (spends : Spends p s Q)
    (imp : ∀ a s', Q a s' → Q' a s') : Spends p s Q' := by
  unfold Spends at spends ⊢
  revert spends
  rcases p s with - | ⟨e | a, s'⟩
  · exact id
  · exact id
  · exact imp a s'

end Spends

theorem Starved.bind {p : Parser α} {f : α → Parser β} (starved : Starved p s) :
    Starved (p >>= f) s :=
  Spends.bind starved fun _ _ no => no.elim

/-- What the first of two readers does where no token is left decides nothing. -/
theorem Starved.step {p : Parser α} {f : α → Parser β} {a : α} {s' : ParserState}
    (run : p s = some (.ok a, s')) (next : Starved (f a) s') : Starved (p >>= f) s := by
  unfold Starved Spends at next ⊢
  rw [run_bind, run]
  exact next

theorem Idle.step {p : Parser α} {f : α → Parser β} {a : α} (run : p s = some (.ok a, s))
    (next : Idle (f a) s) : Idle (p >>= f) s := by
  unfold Idle Spends at next ⊢
  rw [run_bind, run]
  exact next

theorem Starved.ahead {f : Token → Parser α} (starved : Starved (f (s.stream.peek 1)) s) :
    Starved (Parser.ahead 1 >>= f) s := starved

theorem Starved.current {f : Token → Parser α} (starved : Starved (f s.token) s) :
    Starved (Parser.current >>= f) s := starved

theorem Starved.map {p : Parser α} {f : α → β} (starved : Starved p s) : Starved (f <$> p) s := by
  rw [← bind_pure_comp]
  exact starved.bind

theorem starved_unexpected {expected : List String} (ends : s.token.kind = .eof) :
    Starved (Parser.unexpected expected : Parser α) s := by
  have ends : s.stream.current.kind = .eof := ends
  change (_ : ParseFault).isRecoverable = false
  rw [ends]
  rfl

theorem Idle.bind {p : Parser α} {f : α → Parser β} (idle : Idle p s)
    (next : ∀ a s', s'.token.kind = .eof → Idle (f a) s') : Idle (p >>= f) s := by
  refine Spends.bind idle ?_
  rintro a s' ⟨ends, errors⟩
  exact Spends.mono (next a s' ends) fun _ _ holds => ⟨holds.1, holds.2.trans errors⟩

theorem Idle.starves {p : Parser α} {f : α → Parser β} (idle : Idle p s)
    (next : ∀ a s', s'.token.kind = .eof → Starved (f a) s') : Starved (p >>= f) s :=
  Spends.bind idle fun a s' same => next a s' same.1

theorem Idle.current {f : Token → Parser α} (idle : Idle (f s.token) s) :
    Idle (Parser.current >>= f) s := idle

theorem Quiet.idle {p : Parser α} (quiet : Quiet p) (ends : s.token.kind = .eof) : Idle p s := by
  unfold Idle Spends
  rcases step : p s with - | ⟨r, s'⟩
  · trivial
  · obtain ⟨⟨a, rfl⟩, still⟩ := quiet s r s' step
    exact ⟨still.token ▸ ends, still.errors⟩

section Answers

variable {p : Parser α} {P : α → ParserState → Outcome β → Prop} {out : Outcome β}

theorem Answers.mono {P' : α → ParserState → Outcome β → Prop} {run : Option (Outcome α)}
    (answers : Answers E P run out) (imp : ∀ a s', P a s' out → P' a s' out) :
    Answers E P' run out := by
  rcases run with - | ⟨e | a, s'⟩
  · trivial
  · exact answers
  · exact imp a s' answers

/-- A first reader that runs out of tokens has nothing to answer for. -/
theorem Starved.answers (starved : Starved p s) : Answers E P (p s) out := by
  unfold Starved Spends at starved
  revert starved
  rcases p s with - | ⟨e | a, s'⟩
  · exact fun _ => trivial
  · exact fun fatal recoverable => absurd recoverable (by simp [fatal])
  · exact False.elim

theorem Idle.answers (idle : Idle p s)
    (holds : ∀ a s', s'.token.kind = .eof → s'.errors = s.errors → P a s' out) :
    Answers E P (p s) out := by
  unfold Idle Spends at idle
  revert idle
  rcases p s with - | ⟨e | a, s'⟩
  · exact fun _ => trivial
  · exact fun fatal recoverable => absurd recoverable (by simp [fatal])
  · exact fun same => holds a s' same.1 same.2

end Answers

namespace Meets

variable {p : Parser α} {q : Parser β} {R : α → ParserState → β → ParserState → Prop}
  {P : α → ParserState → Outcome β → Prop}

theorem mono {P' : α → ParserState → Outcome β → Prop} (meets : Meets E p q s t P)
    (imp : ∀ a s' out, P a s' out → P' a s' out) : Meets E p q s t P' :=
  fun out run => (meets out run).mono fun a s' => imp a s' out

theorem any (meets : Meets E p q s t (Steadily E R)) : Meets E p q s t (Steadily E Any) := by
  refine meets.mono ?_
  rintro a s' ⟨_ | b, t'⟩ holds
  · exact holds
  · exact ⟨holds.1, trivial⟩

theorem closes {parted : ParserState → ParserState → Prop}
    (meets : Meets E p q s t (Both (Near E) R)) : Meets E p q s t (Closes E parted R) :=
  meets.mono fun _ _ _ => .inr

theorem level (meets : Meets E p q s t (Steadily E R)) : Meets E p q s t (Both (Near E) R) := by
  refine meets.mono ?_
  rintro a s' ⟨_ | b, t'⟩ holds
  · exact holds
  · exact ⟨holds.1.toNear, holds.2⟩

theorem of_starved (starved : Starved p s) : Meets E p q s t P := fun _ _ => starved.answers

theorem pure {a : α} {b : β} (holds : P a s (.ok b, t)) :
    Meets E (pure a : Parser α) (pure b : Parser β) s t P := by
  rintro _ ⟨⟩
  exact holds

section Bind

variable {f : α → Parser γ} {f' : β → Parser δ} {P' : α → ParserState → Outcome β → Prop}
  {P : γ → ParserState → Outcome δ → Prop}
  {parted : ParserState → ParserState → Prop}

/-- What both did is followed by what the first does next, and the second unless it failed. -/
theorem sequel (first : Meets E p q s t P')
    (went : ∀ a s' b t', q t = some (.ok b, t') → P' a s' (.ok b, t') →
      Meets E (f a) (f' b) s' t' P)
    (failed : ∀ a s' e t', q t = some (.error e, t') → P' a s' (.error e, t') →
      Answers E P (f a s') (.error e, t')) :
    Meets E (p >>= f) (q >>= f') s t P := by
  intro out run
  rw [run_bind] at run ⊢
  unfold Meets at first
  rcases step : q t with - | ⟨e | b, t'⟩
  · rw [step] at run
    cases run
  · rw [step] at run
    cases run
    have answers := first _ step
    revert answers
    rcases p s with - | ⟨e | a, s'⟩
    · exact id
    · exact id
    · exact failed a s' e t' step
  · rw [step] at run
    have answers := first _ step
    revert answers
    rcases p s with - | ⟨e | a, s'⟩
    · exact id
    · exact fun halted recoverable => (halted recoverable).elim
    · exact fun holds => went a s' b t' step holds out run

theorem bind (first : Meets E p q s t (Steadily E R))
    (next : ∀ a s' b t', Twin E s' t' → R a s' b t' → Meets E (f a) (f' b) s' t' P) :
    Meets E (p >>= f) (q >>= f') s t P :=
  first.sequel (fun a s' b t' _ holds => next a s' b t' holds.1 holds.2)
    fun _ _ _ _ _ no => no.elim

theorem behind (first : Meets E p q s t (Both (Near E) R))
    (next : ∀ a s' b t', Near E s' t' → R a s' b t' → Meets E (f a) (f' b) s' t' P) :
    Meets E (p >>= f) (q >>= f') s t P :=
  first.sequel (fun a s' b t' _ holds => next a s' b t' holds.1 holds.2)
    fun _ _ _ _ _ no => no.elim

/-- When the tokens have run out, the first reader cannot go on. -/
theorem shut (first : Meets E p q s t (Closes E parted R))
    (starved : ∀ a s', s'.token.kind = .eof → Starved (f a) s')
    (next : ∀ a s' b t', Twin E s' t' → R a s' b t' → Meets E (f a) (f' b) s' t' P) :
    Meets E (p >>= f) (q >>= f') s t P := by
  refine first.sequel (fun a s' b t' _ holds => ?_) fun a s' e t' _ holds => ?_
  · by_cases ends : s'.token.kind = .eof
    · exact of_starved (starved a s' ends)
    · obtain ⟨near, related⟩ := holds.resolve_left fun no => ends no.1
      exact next a s' b t' ⟨near, ends⟩ related
  · rcases holds with ⟨ends, -⟩ | no
    · exact (starved a s' ends).answers
    · exact no.elim

/-- When the tokens have run out, the first reader does without. -/
theorem fall {R' : γ → ParserState → δ → ParserState → Prop}
    (first : Meets E p q s t (Closes E parted R))
    (idle : ∀ a s', s'.token.kind = .eof → Idle (f a) s')
    (next : ∀ a s' b t', Twin E s' t' → R a s' b t' →
      Meets E (f a) (f' b) s' t' (Closes E Freely R')) :
    Meets E (p >>= f) (q >>= f') s t (Closes E Freely R') := by
  refine first.sequel (fun a s' b t' _ holds => ?_) fun a s' e t' _ holds => ?_
  · by_cases ends : s'.token.kind = .eof
    · exact fun out _ => (idle a s' ends).answers fun _ _ ends _ => .inl ⟨ends, trivial⟩
    · obtain ⟨near, related⟩ := holds.resolve_left fun no => ends no.1
      exact next a s' b t' ⟨near, ends⟩ related
  · rcases holds with ⟨ends, -⟩ | no
    · exact (idle a s' ends).answers fun _ _ ends _ => .inl ⟨ends, trivial⟩
    · exact no.elim

theorem map {g : α → γ} {h : β → δ}
    (meets : Meets E p q s t fun a s' out => match out with
      | (.ok b, t') => P (g a) s' (.ok (h b), t')
      | (.error e, t') => P (g a) s' (.error e, t')) :
    Meets E (g <$> p) (h <$> q) s t P := by
  rw [← bind_pure_comp, ← bind_pure_comp]
  refine meets.sequel (fun a s' b t' _ holds out run => ?_) fun a s' e t' _ holds => holds
  cases run
  exact holds

theorem dropped {near : ParserState → ParserState → Prop} (meets : Meets E p q s t (Both near R)) :
    Meets E (Functor.discard p) (Functor.discard q) s t (Both near Any) := by
  refine map (g := fun _ => ()) (h := fun _ => ()) (meets.mono ?_)
  rintro a s' ⟨_ | b, t'⟩ holds
  · exact holds
  · exact ⟨holds.1, trivial⟩

end Bind

/-- A change of the states behind both readers that leaves them at the same token. -/
theorem restoring {own whole : ParserState → ParserState} {P' : α → ParserState → Outcome β → Prop}
    (meets : Meets E p q s t P') (token : ∀ s, (own s).token = s.token)
    (token' : ∀ t, (whole t).token = t.token)
    (halted : ∀ s' t', Twin E s' t' → Twin E (own s') (whole t'))
    (holds : ∀ a s' r t', P' a s' (r, t') → P a (own s') (r, whole t')) :
    Meets E (Parser.restoring own p) (Parser.restoring whole q) s t P := by
  intro out run
  change (q t).bind _ = _ at run
  change Answers E P ((p s).bind _) out
  rcases step : q t with - | ⟨r, t'⟩ <;> rw [step] at run
  · cases run
  cases run
  have answers := meets _ step
  rcases first : p s with - | ⟨e | a, s'⟩ <;> rw [first] at answers
  · trivial
  · intro recoverable
    have halt := answers recoverable
    rcases r with f | b
    · obtain ⟨twin, whole, span, span'⟩ := halt
      exact ⟨halted _ _ twin, whole, token s' ▸ span, token' t' ▸ span'⟩
    · exact halt
  · exact holds a s' r t' answers

/-! What both readers say about their states. -/

variable {condition condition' : Prop} [Decidable condition] [Decidable condition']

theorem ite {p' : Parser α} {q' : Parser β} (same : condition ↔ condition')
    (yes : condition → Meets E p q s t P) (no : ¬condition → Meets E p' q' s t P) :
    Meets E (if condition then p else p') (if condition' then q else q') s t P := by
  by_cases holds : condition
  · rw [if_pos holds, if_pos (same.mp holds)]
    exact yes holds
  · rw [if_neg holds, if_neg fun no => holds (same.mpr no)]
    exact no holds

variable {f : Token → Parser α} {f' : Token → Parser β}

theorem current (meets : Meets E (f s.token) (f' t.token) s t P) :
    Meets E (Parser.current >>= f) (Parser.current >>= f') s t P := meets

theorem ahead {k : Nat} (meets : Meets E (f (s.stream.peek k)) (f' (t.stream.peek k)) s t P) :
    Meets E (Parser.ahead k >>= f) (Parser.ahead k >>= f') s t P := meets

theorem get {f : ParserState → Parser α} {f' : ParserState → Parser β}
    (meets : Meets E (f s) (f' t) s t P) :
    Meets E (MonadState.get >>= f) (MonadState.get >>= f') s t P := meets

end Meets

/-- From a state with the property `I` a reader comes to one, whatever errors it notes on the
way. -/
def Carries (I : ParserState → Prop) (q : Parser β) (t : ParserState) : Prop :=
  I t → ∀ r t', q t = some (r, t') → t.errors <+: t'.errors ∧ ∀ b, r = .ok b → I t'

namespace Carries

variable {I : ParserState → Prop}

theorem pure {a : α} : Carries I (pure a) t := by
  rintro holds _ _ ⟨⟩
  exact ⟨List.prefix_rfl, fun _ _ => holds⟩

theorem bind {p : Parser α} {f : α → Parser β} (first : Carries I p t)
    (next : ∀ a t', Carries I (f a) t') : Carries I (p >>= f) t := by
  intro holds r t' run
  rw [run_bind] at run
  rcases step : p t with - | ⟨e | a, t₁⟩ <;> rw [step] at run
  · cases run
  · cases run
    exact ⟨(first holds _ _ step).1, fun _ no => nomatch no⟩
  · obtain ⟨grows, holds'⟩ := first holds _ _ step
    obtain ⟨grows', holds''⟩ := next a t₁ (holds' a rfl) r t' run
    exact ⟨grows.trans grows', holds''⟩

theorem grows {p : Parser α} {f : α → Parser β} (carries : Carries I p t)
    (quiet : ∀ a, Quiet (f a)) (holds : I t) (r : Except ParseError β) (t' : ParserState)
    (run : (p >>= f) t = some (r, t')) : t.errors <+: t'.errors := by
  rw [run_bind] at run
  rcases step : p t with - | ⟨e | a, t₁⟩ <;> rw [step] at run
  · cases run
  · cases run
    exact (carries holds _ _ step).1
  · rw [(quiet a t₁ r t' run).2.errors]
    exact (carries holds _ _ step).1

theorem check {kind : TokenKind} {f : Bool → Parser β}
    (yes : t.token.kind = kind → Carries I (f true) t) (no : Carries I (f false) t) :
    Carries I (Parser.check kind >>= f) t := by
  change Carries I (f (decide (t.token.kind = kind))) t
  by_cases same : t.token.kind = kind
  · rw [decide_eq_true same]
    exact yes same
  · rw [decide_eq_false same]
    exact no

theorem iterate {step : β → Parser (ForInStep β)} (each : ∀ b t, Carries I (step b) t) (fuel : Nat)
    (b : β) : Carries I (Parser.iterate step fuel b) t := by
  induction fuel generalizing b t with
  | zero => exact fun _ _ _ no => nomatch no
  | succ fuel ih =>
    refine (each b t).bind ?_
    rintro (b | b) t
    · exact .pure
    · exact ih b

end Carries

end PhpAnalyser
