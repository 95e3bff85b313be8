import PhpAnalyser.Proofs.Grammar.Judgement
/-!
What holds when a reader succeeds. Nothing is said here of readers that fail, nor that one succeeds
at all.
-/
namespace PhpAnalyser

theorem ok_of_bind {p : Parser α} {f : α → Parser β} {s s' : ParserState} {b : β}
    (run : (p >>= f) s = some (.ok b, s')) :
    ∃ a s₁, p s = some (.ok a, s₁) ∧ f a s₁ = some (.ok b, s') := by
  rw [run_bind] at run
  cases read : p s with
  | none =>
    rw [read] at run
    cases run
  | some outcome =>
    obtain ⟨result, s₁⟩ := outcome
    rw [read] at run
    cases result with
    | error e => cases run
    | ok a => exact ⟨a, s₁, rfl, run⟩

theorem run_current (f : Token → Parser α) (s : ParserState) :
    (Parser.current >>= f) s = f s.token s := rfl

theorem run_ahead (k : Nat) (f : Token → Parser α) (s : ParserState) :
    (Parser.ahead k >>= f) s = f (s.stream.peek k) s := rfl

/-- A value that has been seen. -/
theorem ok_of_any {ε : Type} {result : Except ε α} {holds : α → Bool}
    (shows : result.toOption.any holds = true) : ∃ a, result = .ok a ∧ holds a = true := by
  cases result with
  | error e => cases shows
  | ok a => exact ⟨a, rfl, shows⟩

def ParserState.Has (s : ParserState) (i : Nat) (kind : NodeKind) (children : List Nat) : Prop :=
  ∃ n, s.nodes[i]? = some n ∧ n.kind = kind ∧ n.children = children

theorem ParserState.Has.develops {s s' : ParserState} {kind : NodeKind} {i : Nat} {ids : List Nat}
    (has : s.Has i kind ids) (develops : Develops s.nodes s'.nodes) : s'.Has i kind ids := by
  obtain ⟨n, found, rfl, rfl⟩ := has
  obtain ⟨n', there, kind, -, children⟩ := develops i n found
  exact ⟨n', there, kind, children⟩

def Succeeds (p : Parser α) (s : ParserState) (Q : α → ParserState → Prop) : Prop :=
  ∀ a s', p s = some (.ok a, s') → Q a s'

namespace Succeeds

variable {s : ParserState} {p : Parser α} {Q R : α → ParserState → Prop}

theorem pure {a : α} (holds : Q a s) : Succeeds (pure a) s Q := by
  intro a' s' run
  cases run
  exact holds

theorem mono (succeeds : Succeeds p s R) (imp : ∀ a s', R a s' → Q a s') : Succeeds p s Q :=
  fun a s' run => imp a s' (succeeds a s' run)

theorem bind {f : α → Parser β} {Q : β → ParserState → Prop} (first : Succeeds p s R)
    (second : ∀ a s', R a s' → Succeeds (f a) s' Q) : Succeeds (p >>= f) s Q := by
  intro b s' run
  obtain ⟨a, s₁, read, run⟩ := ok_of_bind run
  exact second a s₁ (first a s₁ read) b s' run

/-- Whatever was read first. -/
theorem then_ {f : α → Parser β} {Q : β → ParserState → Prop}
    (second : ∀ a s', Succeeds (f a) s' Q) : Succeeds (p >>= f) s Q :=
  .bind (R := fun _ _ => True) (fun _ _ _ => trivial) fun a s' _ => second a s'

/-- What was read first is known. -/
theorem run {s' : ParserState} {f : α → Parser β} {a : α} {Q : β → ParserState → Prop}
    (ran : p s = some (.ok a, s')) (second : Succeeds (f a) s' Q) : Succeeds (p >>= f) s Q := by
  refine .bind (R := fun b s₁ => b = a ∧ s₁ = s') (fun b s₁ ran' => ?_) ?_
  · cases ran.symm.trans ran'
    exact ⟨rfl, rfl⟩
  · rintro _ _ ⟨rfl, rfl⟩
    exact second

theorem discard {Q : Unit → ParserState → Prop} (succeeds : Succeeds p s fun _ => Q ()) :
    Succeeds (discard p) s Q := by
  change Succeeds ((fun _ => ()) <$> p) s Q
  rw [← bind_pure_comp]
  exact succeeds.bind fun _ _ => pure

theorem unexpected {expected : List String} : Succeeds (Parser.unexpected expected) s Q := by
  intro a s' run
  cases run

theorem ite {condition : Prop} [Decidable condition] {p q : Parser α}
    (yes : condition → Succeeds p s Q) (no : ¬condition → Succeeds q s Q) :
    Succeeds (if condition then p else q) s Q := by
  split
  · exact yes (by assumption)
  · exact no (by assumption)

section State

variable {Q : β → ParserState → Prop}

theorem current {f : Token → Parser β} (succeeds : Succeeds (f s.token) s Q) :
    Succeeds (Parser.current >>= f) s Q := succeeds

theorem ahead {k : Nat} {f : Token → Parser β} (succeeds : Succeeds (f (s.stream.peek k)) s Q) :
    Succeeds (Parser.ahead k >>= f) s Q := succeeds

theorem get {f : ParserState → Parser β} (succeeds : Succeeds (f s) s Q) :
    Succeeds (MonadState.get >>= f) s Q := succeeds

theorem modify {change : ParserState → ParserState} {f : Unit → Parser β}
    (succeeds : Succeeds (f ()) (change s) Q) : Succeeds (modify change >>= f) s Q := succeeds

theorem skip {f : Unit → Parser β} (succeeds : Succeeds (f ()) s.advance Q) :
    Succeeds (Parser.skip >>= f) s Q := succeeds

theorem advance {f : Token → Parser β} (succeeds : Succeeds (f s.token) s.advance Q) :
    Succeeds (Parser.advance >>= f) s Q := succeeds

theorem check {kind : TokenKind} {f : Bool → Parser β}
    (succeeds : Succeeds (f (decide (s.token.kind = kind))) s Q) :
    Succeeds (Parser.check kind >>= f) s Q := succeeds

theorem eat {kind : TokenKind} {f : Bool → Parser β}
    (yes : s.token.kind = kind → Succeeds (f true) s.advance Q)
    (no : s.token.kind ≠ kind → Succeeds (f false) s Q) :
    Succeeds (Parser.eat kind >>= f) s Q := by
  by_cases same : s.token.kind = kind
  · have run : Parser.eat kind s = some (.ok true, s.advance) := by
      change (if decide (s.token.kind = kind) = true then _ else _ : Parser Bool) s = _
      rw [if_pos (decide_eq_true same)]
      rfl
    exact .bind (R := fun b s' => b = true ∧ s' = s.advance)
      (fun b s' run' => by cases run.symm.trans run'; exact ⟨rfl, rfl⟩)
      (by rintro _ _ ⟨rfl, rfl⟩; exact yes same)
  · have run : Parser.eat kind s = some (.ok false, s) := by
      change (if decide (s.token.kind = kind) = true then _ else _ : Parser Bool) s = _
      rw [if_neg (by simpa using same)]
      rfl
    exact .bind (R := fun b s' => b = false ∧ s' = s)
      (fun b s' run' => by cases run.symm.trans run'; exact ⟨rfl, rfl⟩)
      (by rintro _ _ ⟨rfl, rfl⟩; exact no same)

end State

/-- A token that is expected is the current one. -/
theorem expect {kind : TokenKind} {expected : String} :
    Succeeds (Parser.expect kind expected) s fun t s' =>
      t = s.token ∧ s.token.kind = kind ∧ s' = s.advance := by
  refine .check <| .ite (fun is => ?_) fun _ => .unexpected
  exact .current <| .skip <| .pure ⟨rfl, of_decide_eq_true is, rfl⟩

theorem push {kind : NodeKind} {span : Span} {ids : List Nat} :
    Succeeds (Parser.push kind span ids) s fun i s' =>
      i = s.nodes.size ∧ s' = { s with nodes := adopt s.nodes kind span ids } := by
  refine .get <| .ite (fun _ => ?_) fun _ _ _ run => nomatch run
  intro i s' run
  cases run
  exact ⟨rfl, rfl⟩

theorem finish {kind : NodeKind} {start : Span} {ids : List Nat} :
    Succeeds (Parser.finish kind start ids) s fun i s' =>
      i = s.nodes.size ∧ s' = { s with nodes := adopt s.nodes kind (start.merge s.last) ids } :=
  .get push

section Nodes

variable {kind : NodeKind} {ids : List Nat}

theorem pushed {span : Span} : Succeeds (Parser.push kind span ids) s fun i s' =>
    s'.Has i kind ids ∧ Develops s.nodes s'.nodes := by
  refine push.mono ?_
  rintro i s' ⟨rfl, rfl⟩
  exact ⟨⟨_, adopt_new, rfl, rfl⟩, adopt_develops⟩

theorem finished {start : Span} : Succeeds (Parser.finish kind start ids) s fun i s' =>
    s'.Has i kind ids ∧ Develops s.nodes s'.nodes := .get pushed

end Nodes

/-- What one step of a loop leaves: the invariant to go on, or the property asked for. -/
theorem repeatFrom {step : β → Parser (ForInStep β)} {b : β} {I Q : β → ParserState → Prop}
    (start : I b s)
    (each : ∀ b s, I b s → Succeeds (step b) s fun r s' =>
      match r with
      | .done b => Q b s'
      | .yield b => I b s') :
    Succeeds (Parser.repeatFrom b step) s Q := by
  have loop (fuel : Nat) : ∀ b s, I b s → Succeeds (Parser.iterate step fuel b) s Q := by
    induction fuel with
    | zero => exact fun b s _ a s' run => nomatch run
    | succ fuel ih =>
      refine fun b s holds => .bind (each b s holds) fun r s' left => ?_
      cases r with
      | done b => exact pure left
      | yield b => exact ih b s' left
  exact loop _ b s start

end Succeeds

end PhpAnalyser
