import PhpAnalyser.Proofs.Grammar.State
/-!
A stretch of the tokens of a text that is also a text of its own, and the states of two parsers
that read it side by side: one reads the stretch alone, the other the whole text.
-/
namespace PhpAnalyser

/-- Two tokens that are written alike, wherever they stand. Only a brace tells whether something is
in front of it. -/
structure Token.Like (a b : Token) : Prop where
  kind : a.kind = b.kind
  text : a.text = b.text
  trivia : a.kind = .leftBrace → a.trivia.isEmpty = b.trivia.isEmpty

theorem Token.Like.is_operator {a b : Token} (like : a.Like b) (op : String) :
    a.isOperator op = b.isOperator op := by
  rw [isOperator, isOperator, like.kind, like.text]

theorem Token.Like.operator {a b : Token} (like : a.Like b) : a.operator? = b.operator? := by
  rw [operator?, operator?, like.kind, like.text]

/-- The tokens from `start` on of a whole text that are written like those of a text of their own.
They end with their only semicolon. -/
structure Excerpt where
  own : Array Token
  whole : Array Token
  start : Nat
  length : Nat
  size : own.size = length + 1
  inside : start + length < whole.size
  alike : ∀ q a b, q < length → own[q]? = some a → whole[start + q]? = some b → a.Like b
  more : ∀ q a, own[q]? = some a → (a.kind ≠ .eof ↔ q < length)
  semicolon : ∀ q a, own[q]? = some a → (a.kind = .semicolon ↔ q + 1 = length)

namespace Excerpt

variable (E : Excerpt)

def Told (errors : List ParseError) : Prop :=
  ∃ e ∈ errors, ∃ q t, q < E.length ∧ E.whole[E.start + q]? = some t ∧ e.span = t.span

def Torn : Prop :=
  (∃ t ∈ E.own, t.kind = .keyword .if_) ∧
    ∃ t, E.whole[E.start + E.length]? = some t ∧
      (t.kind = .keyword .else_ ∨ t.kind = .keyword .elseIf_)

def Slipped (errors : List ParseError) : Prop :=
  ∃ e ∈ errors, ∃ t ∈ E.own, t.kind = .semicolon ∧ e.span = t.span

theorem told_mono {errors later : List ParseError} (told : E.Told errors)
    (before : errors <+: later) : E.Told later := by
  obtain ⟨e, member, rest⟩ := told
  exact ⟨e, before.subset member, rest⟩

end Excerpt

def Within (own whole : Option TypeScope) : Prop :=
  ∀ a, own = some a → ∃ b, whole = some b ∧ a.isClass = b.isClass ∧
    a.parent.isSome = b.parent.isSome

/-- Two parsers are at the same place of a stretch, or both behind it. -/
structure Near (E : Excerpt) (s t : ParserState) : Prop where
  own : s.tokens = E.own
  whole : t.tokens = E.whole
  place : t.place = E.start + s.place
  depth : s.depth = t.depth
  scope : Within s.scope t.scope
  told : s.errors ≠ [] → E.Told t.errors

structure Twin (E : Excerpt) (s t : ParserState) : Prop extends Near E s t where
  more : s.token.kind ≠ .eof

structure Still (s s' : ParserState) : Prop where
  stream : s'.stream = s.stream
  depth : s'.depth = s.depth
  scope : s'.scope = s.scope
  errors : s'.errors = s.errors

theorem Still.refl (s : ParserState) : Still s s := ⟨rfl, rfl, rfl, rfl⟩

theorem Still.trans {s s' s'' : ParserState} (first : Still s s') (second : Still s' s'') :
    Still s s'' where
  stream := second.stream.trans first.stream
  depth := second.depth.trans first.depth
  scope := second.scope.trans first.scope
  errors := second.errors.trans first.errors

theorem Still.token {s s' : ParserState} (still : Still s s') : s'.token = s.token :=
  congrArg TokenStream.current still.stream

variable {E : Excerpt} {s s' t t' : ParserState}

theorem Near.still (near : Near E s t) (own : Still s s') (whole : Still t t') : Near E s' t' where
  own := (congrArg TokenStream.tokens own.stream).trans near.own
  whole := (congrArg TokenStream.tokens whole.stream).trans near.whole
  place := by
    have place := near.place
    simp only [ParserState.place, own.stream, whole.stream] at place ⊢
    exact place
  depth := by rw [own.depth, whole.depth, near.depth]
  scope := by
    rw [own.scope, whole.scope]
    exact near.scope
  told := by
    rw [own.errors, whole.errors]
    exact near.told

theorem Twin.still (twin : Twin E s t) (own : Still s s') (whole : Still t t') : Twin E s' t' where
  toNear := twin.toNear.still own whole
  more := own.token ▸ twin.more

theorem Near.token_at (near : Near E s t) : E.own[s.place]? = some s.token :=
  near.own ▸ s.token_at

theorem Near.at_end (near : Near E s t) (ends : s.token.kind = .eof) : s.place = E.length := by
  have low := s.place_lt
  rw [near.own, E.size] at low
  have behind : ¬ s.place < E.length := fun before =>
    (E.more s.place s.token near.token_at).mpr before ends
  omega

namespace Twin

variable (twin : Twin E s t)
include twin

theorem place_lt : s.place < E.length :=
  (E.more s.place s.token twin.token_at).mp twin.more

theorem found : E.whole[E.start + s.place]? = some t.token := by
  rw [← twin.whole, ← twin.place]
  exact t.token_at

theorem like : s.token.Like t.token := E.alike _ _ _ twin.place_lt twin.token_at twin.found

theorem more' : t.token.kind ≠ .eof := twin.like.kind ▸ twin.more

/-- Taking the current token leads both behind it. -/
theorem advance : Near E s.advance t.advance where
  own := tokens_advance.trans twin.own
  whole := tokens_advance.trans twin.whole
  place := by
    rw [place_advance twin.more, place_advance twin.more', twin.place, Nat.add_assoc]
  depth := by rw [depth_advance, depth_advance, twin.depth]
  scope := by
    rw [advance_of_more twin.more, advance_of_more twin.more']
    exact twin.scope
  told := by
    rw [errors_advance, errors_advance]
    exact twin.told

/-- Only the semicolon is the last token. -/
theorem step (other : s.token.kind ≠ .semicolon) : Twin E s.advance t.advance where
  toNear := twin.advance
  more := by
    have found := twin.advance.token_at
    rw [E.more _ _ found, place_advance twin.more]
    have low := twin.place_lt
    have inner : s.place + 1 ≠ E.length := fun last =>
      other ((E.semicolon _ _ twin.token_at).mpr last)
    omega

theorem last (semicolon : s.token.kind = .semicolon) : s.advance.token.kind = .eof := by
  have last := (E.semicolon _ _ twin.token_at).mp semicolon
  by_contra more
  have low := (E.more _ _ twin.advance.token_at).mp more
  rw [place_advance twin.more] at low
  omega

theorem told_here {errors : List ParseError} {e : ParseError} (member : e ∈ errors)
    (span : e.span = t.token.span) : E.Told errors :=
  ⟨e, member, s.place, t.token, twin.place_lt, twin.found, span⟩

end Twin

theorem Twin.ahead (twin : Twin E s t) (other : s.token.kind ≠ .semicolon) :
    (s.stream.peek 1).Like (t.stream.peek 1) := by
  rw [peek_one twin.more, peek_one twin.more']
  exact (twin.step other).like

theorem Twin.ahead_two (twin : Twin E s t) (other : s.token.kind ≠ .semicolon)
    (other' : (s.stream.peek 1).kind ≠ .semicolon) :
    (s.stream.peek 2).Like (t.stream.peek 2) := by
  have next := twin.step other
  rw [peek_one twin.more] at other'
  rw [peek_two twin.more next.more, peek_two twin.more' next.more']
  exact (next.step other').like

end PhpAnalyser
