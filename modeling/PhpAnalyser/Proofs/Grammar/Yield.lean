import PhpAnalyser.Proofs.Grammar.Control
import PhpAnalyser.Proofs.Scope.Judgement
/-!
Readers that succeed. From the tokens ahead of a state it follows that reading succeeds, and what it
leaves.
-/
namespace PhpAnalyser

def ParserState.kindsAhead (s : ParserState) : List TokenKind :=
  (s.tokens.toList.drop s.place).map (·.kind)

section Ahead

variable {s : ParserState} {kind : TokenKind} {rest : List TokenKind}

theorem kinds_ahead_eq (s : ParserState) : s.kindsAhead =
    s.token.kind :: ((s.tokens.toList.drop (s.place + 1)).map (·.kind)) := by
  have low : s.place < s.tokens.toList.length := by simpa using s.place_lt
  rw [ParserState.kindsAhead, List.drop_eq_getElem_cons low]
  rfl

theorem kind_of_ahead (ahead : s.kindsAhead = kind :: rest) : s.token.kind = kind := by
  rw [kinds_ahead_eq] at ahead
  exact (List.cons.inj ahead).1

theorem kinds_ahead_advance (ahead : s.kindsAhead = kind :: rest) (more : kind ≠ .eof) :
    s.advance.kindsAhead = rest := by
  rw [ParserState.kindsAhead, tokens_advance, place_advance (kind_of_ahead ahead ▸ more)]
  rw [kinds_ahead_eq] at ahead
  exact (List.cons.inj ahead).2

theorem remaining_eq (s : ParserState) : s.stream.remaining = s.kindsAhead.length := by
  simp [ParserState.kindsAhead, TokenStream.remaining, ParserState.tokens, ParserState.place]

end Ahead

def ParserState.tokensAhead (s : ParserState) : List Token := s.tokens.toList.drop s.place

section TokensAhead

variable {s : ParserState} {t : Token} {rest : List Token}

theorem tokens_ahead_eq (s : ParserState) :
    s.tokensAhead = s.token :: s.tokens.toList.drop (s.place + 1) := by
  have low : s.place < s.tokens.toList.length := by simpa using s.place_lt
  rw [ParserState.tokensAhead, List.drop_eq_getElem_cons low]
  rfl

theorem token_of_ahead (ahead : s.tokensAhead = t :: rest) : s.token = t := by
  rw [tokens_ahead_eq] at ahead
  exact (List.cons.inj ahead).1

theorem tokens_ahead_advance (ahead : s.tokensAhead = t :: rest) (more : t.kind ≠ .eof) :
    s.advance.tokensAhead = rest := by
  rw [ParserState.tokensAhead, tokens_advance, place_advance (token_of_ahead ahead ▸ more)]
  rw [tokens_ahead_eq] at ahead
  exact (List.cons.inj ahead).2

end TokensAhead

/-- From `s` to `s'` these tokens have been taken, without an error, and the nodes of `s` are
kept. -/
structure Consumes (ts : List Token) (s s' : ParserState) : Prop where
  ahead : s.tokensAhead = ts ++ s'.tokensAhead
  tokens : s'.tokens = s.tokens
  names : s'.names = s.names
  nodes : Develops s.nodes s'.nodes
  errors : s'.errors = s.errors

namespace Consumes

variable {s s' s'' : ParserState} {t : Token} {ts us rest : List Token}

theorem trans (first : Consumes ts s s') (second : Consumes us s' s'') :
    Consumes (ts ++ us) s s'' where
  ahead := by rw [first.ahead, second.ahead, List.append_assoc]
  tokens := second.tokens.trans first.tokens
  names := second.names.trans first.names
  nodes := first.nodes.trans second.nodes
  errors := second.errors.trans first.errors

theorem advance (ahead : s.tokensAhead = t :: rest) (more : t.kind ≠ .eof) :
    Consumes [t] s s.advance where
  ahead := by rw [ahead, tokens_ahead_advance ahead more, List.singleton_append]
  tokens := tokens_advance
  names := names_advance
  nodes := nodes_advance ▸ .refl _
  errors := errors_advance

theorem push (kind : NodeKind) (span : Span) (ids : List Nat) :
    Consumes [] s { s with nodes := adopt s.nodes kind span ids } :=
  ⟨rfl, rfl, rfl, adopt_develops, rfl⟩

theorem left (consumes : Consumes ts s s') (ahead : s.tokensAhead = ts ++ rest) :
    s'.tokensAhead = rest :=
  List.append_cancel_left (consumes.ahead.symm.trans ahead)

end Consumes

/-- Reading succeeds, and the value and the state have the property `Q`. -/
def Yields (p : Parser α) (s : ParserState) (Q : α → ParserState → Prop) : Prop :=
  ∃ a s', p s = some (.ok a, s') ∧ Q a s'

namespace Yields

variable {s : ParserState} {p : Parser α} {Q R : α → ParserState → Prop} {kind : TokenKind}

theorem pure {a : α} (holds : Q a s) : Yields (pure a) s Q := ⟨a, s, rfl, holds⟩

theorem bind {f : α → Parser β} {Q : β → ParserState → Prop} (first : Yields p s R)
    (second : ∀ a s', R a s' → Yields (f a) s' Q) : Yields (p >>= f) s Q := by
  obtain ⟨a, s₁, run, holds⟩ := first
  obtain ⟨b, s₂, run', holds'⟩ := second a s₁ holds
  exact ⟨b, s₂, by rw [run_bind, run]; exact run', holds'⟩

theorem mono (yields : Yields p s R) (imp : ∀ a s', R a s' → Q a s') : Yields p s Q := by
  obtain ⟨a, s', run, holds⟩ := yields
  exact ⟨a, s', run, imp a s' holds⟩

theorem run {f : α → Parser β} {a : α} {s' : ParserState} {Q : β → ParserState → Prop}
    (ran : p s = some (.ok a, s')) (yields : Yields (f a) s' Q) : Yields (p >>= f) s Q := by
  refine .bind (R := fun b s₁ => b = a ∧ s₁ = s') ⟨a, s', ran, rfl, rfl⟩ ?_
  rintro _ _ ⟨rfl, rfl⟩
  exact yields

theorem map {f : α → β} {Q : β → ParserState → Prop} (yields : Yields p s fun a s' => Q (f a) s') :
    Yields (f <$> p) s Q := by
  rw [← bind_pure_comp]
  exact yields.bind fun a s' => pure

theorem current {f : Token → Parser β} {Q : β → ParserState → Prop}
    (yields : Yields (f s.token) s Q) : Yields (Parser.current >>= f) s Q := yields

theorem get {f : ParserState → Parser β} {Q : β → ParserState → Prop} (yields : Yields (f s) s Q) :
    Yields (MonadState.get >>= f) s Q := yields

theorem ahead {k : Nat} {f : Token → Parser β} {Q : β → ParserState → Prop}
    (yields : Yields (f (s.stream.peek k)) s Q) : Yields (Parser.ahead k >>= f) s Q := yields

theorem remaining {f : Nat → Parser β} {Q : β → ParserState → Prop}
    (yields : Yields (f s.kindsAhead.length) s Q) : Yields (Parser.remaining >>= f) s Q := by
  rw [← remaining_eq] at yields
  exact yields

theorem advance {f : Token → Parser β} {Q : β → ParserState → Prop}
    (yields : Yields (f s.token) s.advance Q) : Yields (Parser.advance >>= f) s Q := yields

theorem skip {f : Unit → Parser β} {Q : β → ParserState → Prop}
    (yields : Yields (f ()) s.advance Q) : Yields (Parser.skip >>= f) s Q := yields

theorem check {f : Bool → Parser β} {Q : β → ParserState → Prop}
    (yields : Yields (f (decide (s.token.kind = kind))) s Q) :
    Yields (Parser.check kind >>= f) s Q := yields

theorem eat_pos {f : Bool → Parser β} {Q : β → ParserState → Prop} (is : s.token.kind = kind)
    (yields : Yields (f true) s.advance Q) : Yields (Parser.eat kind >>= f) s Q := by
  refine .bind (R := fun b s' => b = true ∧ s' = s.advance) ?_ ?_
  · change Yields (if decide (s.token.kind = kind) = true then _ else _) s _
    rw [if_pos (decide_eq_true is)]
    exact ⟨_, _, rfl, rfl, rfl⟩
  · rintro _ _ ⟨rfl, rfl⟩
    exact yields

theorem eat_neg {f : Bool → Parser β} {Q : β → ParserState → Prop} (other : s.token.kind ≠ kind)
    (yields : Yields (f false) s Q) : Yields (Parser.eat kind >>= f) s Q := by
  refine .bind (R := fun b s' => b = false ∧ s' = s) ?_ ?_
  · change Yields (if decide (s.token.kind = kind) = true then _ else _) s _
    rw [if_neg (by simpa using other)]
    exact ⟨_, _, rfl, rfl, rfl⟩
  · rintro _ _ ⟨rfl, rfl⟩
    exact yields

theorem ite_pos {condition : Prop} [Decidable condition] {p q : Parser α} (holds : condition)
    (yields : Yields p s Q) : Yields (if condition then p else q) s Q := by
  rwa [if_pos holds]

theorem ite_neg {condition : Prop} [Decidable condition] {p q : Parser α} (fails : ¬condition)
    (yields : Yields q s Q) : Yields (if condition then p else q) s Q := by
  rwa [if_neg fails]

theorem expect {expected : String} {f : Unit → Parser β} {Q : β → ParserState → Prop}
    (is : s.token.kind = kind) (yields : Yields (f ()) s.advance Q) :
    Yields (discard (Parser.expect kind expected) >>= f) s Q := by
  refine .bind (R := fun _ s' => s' = s.advance) ?_ fun _ s' same => same ▸ yields
  exact .map <| .check <| .ite_pos (decide_eq_true is) ⟨s.token, s.advance, rfl, rfl⟩

theorem push {kind : NodeKind} {span : Span} {ids : List Nat} {Q : Nat → ParserState → Prop}
    (inside : ∀ i ∈ ids, i < s.nodes.size)
    (holds : Q s.nodes.size { s with nodes := adopt s.nodes kind span ids }) :
    Yields (Parser.push kind span ids) s Q := by
  refine ⟨_, _, ?_, holds⟩
  rw [Heeds.push_run, if_pos]
  simpa using inside

theorem nodeAt {i : Nat} (inside : i < s.nodes.size) {f : Node → Parser β}
    {Q : β → ParserState → Prop} (yields : Yields (f s.nodes[i]) s Q) :
    Yields (Parser.nodeAt i >>= f) s Q := by
  refine .bind (R := fun n s' => n = s.nodes[i] ∧ s' = s) ?_ ?_
  · refine .get ?_
    rw [Array.getElem?_eq_getElem inside]
    exact ⟨_, _, rfl, rfl, rfl⟩
  · rintro _ _ ⟨rfl, rfl⟩
    exact yields

theorem wrap {kind : NodeKind} {base : Nat} {ids : List Nat} {Q : Nat → ParserState → Prop}
    (inside : ∀ i ∈ base :: ids, i < s.nodes.size)
    (holds : ∀ span, Q s.nodes.size { s with nodes := adopt s.nodes kind span (base :: ids) }) :
    Yields (Parser.wrap kind base ids) s Q := by
  refine .bind (R := fun _ s' => s' = s) ?_ fun span s' same => same ▸ .push inside (holds span)
  exact .nodeAt (inside base List.mem_cons_self) ⟨_, _, rfl, rfl⟩

theorem tryCatch {handler : ParseError → Parser α} (yields : Yields p s Q) :
    Yields (tryCatch p handler) s Q := by
  obtain ⟨a, s', run, holds⟩ := yields
  exact ⟨a, s', by rw [run_try_catch, run], holds⟩

/-- Reading within the limit. -/
theorem nested (low : s.depth < Parser.maxNesting)
    (yields : ∀ s₁, s₁.kindsAhead = s.kindsAhead → s₁.errors = s.errors → s₁.depth = s.depth + 1 →
      Yields p s₁ R)
    (leaves : ∀ a s' depth, R a s' → Q a { s' with depth }) : Yields (Parser.nested p) s Q := by
  obtain ⟨a, s', run, holds⟩ := yields { s with depth := s.depth + 1 } rfl rfl rfl
  refine ⟨a, { s' with depth := s'.depth - 1 }, ?_, leaves a s' _ holds⟩
  have enter : Parser.enterNesting s = some (.ok (), { s with depth := s.depth + 1 }) := by
    have fits : ¬s.depth + 1 > Parser.maxNesting := by omega
    change (if s.depth + 1 > Parser.maxNesting then _ else _ : Parser Unit) _ = _
    rw [if_neg fits]
    rfl
  rw [Parser.nested, run_bind, enter]
  change (p _).bind _ = _
  rw [run]
  rfl

/-- A list with one item, behind which it ends. -/
theorem recovering {stop : Token → Bool} {item : Parser (List Nat)}
    {R : List Nat → ParserState → Prop} (more : s.token.kind ≠ .eof) (goes : stop s.token = false)
    (first : Yields item s fun ids s' => R ids s' ∧ (s'.token.kind = .eof ∨ stop s'.token = true)) :
    Yields (Parser.recovering stop item) s R := by
  have starts : (s.stream.atEnd || stop s.token) = false := by
    rw [at_end]
    simpa using ⟨more, goes⟩
  refine .remaining ?_
  rw [kinds_ahead_eq, List.length_cons]
  refine .bind (R := fun r s' => ∃ ids, r = .yield ids ∧ R ids s' ∧
    (s'.token.kind = .eof ∨ stop s'.token = true)) ?_ ?_
  · refine .get <| .ite_neg (Bool.eq_false_iff.mp starts) <| .tryCatch <| .bind first ?_
    exact fun ids s' holds => .pure ⟨ids, rfl, holds⟩
  · rintro _ s' ⟨ids, rfl, holds, ended⟩
    have ends : (s'.stream.atEnd || stop s'.token) = true := by
      rw [at_end]
      simpa using ended
    refine .bind (R := fun r s'' => r = .done ids ∧ s'' = s') ?_ ?_
    · exact .get <| .ite_pos ends (.pure ⟨rfl, rfl⟩)
    · rintro _ _ ⟨rfl, rfl⟩
      exact .pure holds

end Yields

end PhpAnalyser
