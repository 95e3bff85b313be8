import PhpAnalyser.Grammar.Parser
import PhpAnalyser.Proofs.Lockstep.Judgement
/-!
What readers side by side do that all productions are made of: they take tokens and make nodes.
-/
namespace PhpAnalyser

variable {α β γ δ : Type} {E : Excerpt} {s t : ParserState}

namespace Meets

section Tokens

variable {P : γ → ParserState → Outcome δ → Prop}

theorem unexpected {expected expected' : List String} (twin : Twin E s t) :
    Meets E (Parser.unexpected expected : Parser γ) (Parser.unexpected expected' : Parser δ) s t
      P := by
  rintro _ ⟨⟩ recoverable
  have kind : s.stream.current.kind = t.stream.current.kind := twin.like.kind
  refine ⟨twin, ?_, rfl, rfl⟩
  rw [← kind]
  cases own : s.stream.current.kind with
  | eof => exact absurd own twin.more
  | error fault =>
    simp only [own] at recoverable
    cases recoverable
  | _ => rfl

theorem skip {f : Unit → Parser γ} {f' : Unit → Parser δ} (twin : Twin E s t)
    (other : s.token.kind ≠ .semicolon)
    (next : Twin E s.advance t.advance → Meets E (f ()) (f' ()) s.advance t.advance P) :
    Meets E (Parser.skip >>= f) (Parser.skip >>= f') s t P :=
  next (twin.step other)

/-- A token that may be the last. -/
theorem take {f : Unit → Parser γ} {f' : Unit → Parser δ} (twin : Twin E s t)
    (next : Near E s.advance t.advance → Meets E (f ()) (f' ()) s.advance t.advance P) :
    Meets E (Parser.skip >>= f) (Parser.skip >>= f') s t P :=
  next twin.advance

theorem advance {f : Token → Parser γ} {f' : Token → Parser δ} (twin : Twin E s t)
    (other : s.token.kind ≠ .semicolon)
    (next : s.token.Like t.token → Twin E s.advance t.advance →
      Meets E (f s.token) (f' t.token) s.advance t.advance P) :
    Meets E (Parser.advance >>= f) (Parser.advance >>= f') s t P :=
  next twin.like (twin.step other)

theorem check {kind : TokenKind} {f : Bool → Parser γ} {f' : Bool → Parser δ} (twin : Twin E s t)
    (yes : s.token.kind = kind → Meets E (f true) (f' true) s t P)
    (no : s.token.kind ≠ kind → Meets E (f false) (f' false) s t P) :
    Meets E (Parser.check kind >>= f) (Parser.check kind >>= f') s t P := by
  change Meets E (f (decide (s.token.kind = kind))) (f' (decide (t.token.kind = kind))) s t P
  rw [← twin.like.kind]
  by_cases same : s.token.kind = kind
  · rw [decide_eq_true same]
    exact yes same
  · rw [decide_eq_false same]
    exact no same

theorem test {kind : TokenKind} {f : Bool → Parser γ} {f' : Bool → Parser δ}
    (meets : Meets E (f (decide (s.token.kind = kind))) (f' (decide (t.token.kind = kind))) s t P) :
    Meets E (Parser.check kind >>= f) (Parser.check kind >>= f') s t P := meets

theorem checkOperator {op : String} {f : Bool → Parser γ} {f' : Bool → Parser δ}
    (twin : Twin E s t)
    (yes : s.token.kind = .operator → Meets E (f true) (f' true) s t P)
    (no : Meets E (f false) (f' false) s t P) :
    Meets E (Parser.checkOperator op >>= f) (Parser.checkOperator op >>= f') s t P := by
  change Meets E (f (s.token.isOperator op)) (f' (t.token.isOperator op)) s t P
  rw [← twin.like.is_operator]
  cases same : s.token.isOperator op with
  | false => exact no
  | true =>
    simp only [Token.isOperator, Bool.and_eq_true, decide_eq_true_eq] at same
    exact yes same.1

end Tokens

end Meets

/-! What is read behind a reader that leaves no statement. -/

section Steady

variable {p : Parser α} {R : α → ParserState → α → ParserState → Prop}
  {P : γ → ParserState → Outcome δ → Prop} {f : α → Parser γ} {f' : α → Parser δ}

theorem Steady.then (steady : Steady E p R) (twin : Twin E s t)
    (next : ∀ a s b t, Twin E s t → Meets E (f a) (f' b) s t P) :
    Meets E (p >>= f) (p >>= f') s t P :=
  (steady s t twin).bind fun a s b t twin _ => next a s b t twin

theorem Steady.same (steady : Steady E p Same) (twin : Twin E s t)
    (next : ∀ a s t, Twin E s t → Meets E (f a) (f' a) s t P) :
    Meets E (p >>= f) (p >>= f') s t P := by
  refine (steady s t twin).bind ?_
  rintro a s _ t twin ⟨⟩
  exact next a s t twin

theorem Steady.mono {R' : α → ParserState → α → ParserState → Prop} (steady : Steady E p R)
    (imp : ∀ a s b t, R a s b t → R' a s b t) : Steady E p R' := by
  intro s t twin
  refine (steady s t twin).mono ?_
  rintro a s' ⟨_ | b, t'⟩ holds
  · exact holds
  · exact ⟨holds.1, imp a s' b t' holds.2⟩

theorem Steady.any (steady : Steady E p R) : Steady E p Any :=
  steady.mono fun _ _ _ _ _ => trivial

theorem Steady.map {R : β → ParserState → β → ParserState → Prop} {f : α → β}
    (steady : Steady E p fun a s b t => R (f a) s (f b) t) : Steady E (f <$> p) R := by
  intro s t twin
  refine .map ((steady s t twin).mono ?_)
  rintro a s' ⟨_ | b, t'⟩ holds
  · exact holds
  · exact holds

theorem Steady.discard (steady : Steady E p R) : Steady E (discard p) Any :=
  steady.any.map (f := fun _ => ())

end Steady

def Written (a : Token) (_ : ParserState) (b : Token) (_ : ParserState) : Prop := a.Like b

theorem eat_steady {kind : TokenKind} (other : kind ≠ .semicolon) :
    Steady E (Parser.eat kind) Same := by
  intro s t twin
  refine .check twin (fun same => ?_) fun _ => .pure ⟨twin, rfl⟩
  exact .skip twin (same ▸ other) fun twin => .pure ⟨twin, rfl⟩

/-- A token that may be the last. -/
theorem eat_meets {kind : TokenKind} (twin : Twin E s t) :
    Meets E (Parser.eat kind) (Parser.eat kind) s t
      (Both (Near E) fun a s b t => a = b ∧ (a = false → Twin E s t)) := by
  refine .check twin (fun _ => ?_) fun _ => .pure ⟨twin.toNear, rfl, fun _ => twin⟩
  exact .take twin fun near => .pure ⟨near, rfl, fun no => nomatch no⟩

theorem eat_operator_steady {op : String} : Steady E (Parser.eatOperator op) Same := by
  intro s t twin
  refine .checkOperator twin (fun same => ?_) (.pure ⟨twin, rfl⟩)
  exact .skip twin (by rw [same]; nofun) fun twin => .pure ⟨twin, rfl⟩

theorem skip_meets (twin : Twin E s t) (other : s.token.kind ≠ .semicolon) :
    Meets E Parser.skip Parser.skip s t (Steadily E Any) := by
  rintro _ ⟨⟩
  exact ⟨twin.step other, trivial⟩

theorem advance_meets (twin : Twin E s t) (other : s.token.kind ≠ .semicolon) :
    Meets E Parser.advance Parser.advance s t (Steadily E Written) :=
  .advance twin other fun like twin => .pure ⟨twin, like⟩

theorem expect_steady {kind : TokenKind} {expected : String} (other : kind ≠ .semicolon) :
    Steady E (Parser.expect kind expected) Written := by
  intro s t twin
  refine .check twin (fun same => ?_) fun _ => .unexpected twin
  exact advance_meets twin (same ▸ other)

theorem expect_operator_steady {op expected : String} :
    Steady E (Parser.expectOperator op expected) Any := by
  intro s t twin
  refine .checkOperator twin (fun same => ?_) (.unexpected twin)
  exact skip_meets twin (by rw [same]; nofun)

namespace Meets

variable {P : γ → ParserState → Outcome δ → Prop}

/-- A token that only has to be there. -/
theorem mark {kind : TokenKind} {expected : String} {f : Unit → Parser γ} {f' : Unit → Parser δ}
    (twin : Twin E s t) (other : kind ≠ .semicolon)
    (next : ∀ s t, Twin E s t → Meets E (f ()) (f' ()) s t P) :
    Meets E (discard (Parser.expect kind expected) >>= f)
      (discard (Parser.expect kind expected) >>= f') s t P :=
  (expect_steady other).discard.then twin fun _ s _ t => next s t

theorem onlyIf {R : List α → ParserState → List β → ParserState → Prop} {p : Parser α}
    {q : Parser β} {wanted : Bool} (twin : Twin E s t)
    (yes : wanted = true → Meets E p q s t (Steadily E fun a s b t => R [a] s [b] t))
    (no : wanted = false → R [] s [] t) :
    Meets E (Parser.onlyIf wanted p) (Parser.onlyIf wanted q) s t (Steadily E R) := by
  cases wanted with
  | false => exact .pure ⟨twin, no rfl⟩
  | true => exact (yes rfl).bind fun a s b t twin related => .pure ⟨twin, related⟩

end Meets

theorem only_if_steady {p : Parser α} {wanted : Bool} (steady : Steady E p Any) :
    Steady E (Parser.onlyIf wanted p) Any :=
  fun s t twin => .onlyIf twin (fun _ => steady s t twin) fun _ => trivial

theorem span_from_quiet {start : Span} : Quiet (Parser.spanFrom start) :=
  .get fun _ => .pure _

theorem node_at_quiet {i : Nat} : Quiet (Parser.nodeAt i) := by
  refine .get fun s => ?_
  split
  · exact .pure _
  · exact .stuck

def Builds (kind : NodeKind) (p : Parser Nat) : Prop :=
  ∀ s r s', p s = some (r, s') → ∃ i, r = .ok i ∧ Still s s' ∧ kindAt s'.nodes i = some kind

theorem Builds.quiet {kind : NodeKind} {p : Parser Nat} (builds : Builds kind p) : Quiet p := by
  intro s r s' run
  obtain ⟨i, rfl, still, -⟩ := builds s r s' run
  exact ⟨⟨i, rfl⟩, still⟩

theorem Quiet.builds {kind : NodeKind} {p : Parser α} {f : α → Parser Nat} (quiet : Quiet p)
    (next : ∀ a, Builds kind (f a)) : Builds kind (p >>= f) := by
  intro s r s' run
  rw [run_bind] at run
  rcases step : p s with - | ⟨r₁, s₁⟩
  · rw [step] at run
    cases run
  · obtain ⟨⟨a, rfl⟩, still⟩ := quiet s r₁ s₁ step
    rw [step] at run
    obtain ⟨i, ok, still', kind⟩ := next a s₁ r s' run
    exact ⟨i, ok, still.trans still', kind⟩

theorem push_builds {kind : NodeKind} {span : Span} {children : List Nat} :
    Builds kind (Parser.push kind span children) := by
  intro s r s' run
  rw [Parser.push] at run
  change (if _ then _ else _ : Parser Nat) s = _ at run
  split at run
  · cases run
    refine ⟨_, rfl, ⟨rfl, rfl, rfl, rfl⟩, ?_⟩
    rw [kindAt, adopt_new, Option.map_some]
  · cases run

theorem finish_builds {kind : NodeKind} {start : Span} {children : List Nat} :
    Builds kind (Parser.finish kind start children) :=
  span_from_quiet.builds fun _ => push_builds

theorem wrap_builds {kind : NodeKind} {base : Nat} {rest : List Nat} :
    Builds kind (Parser.wrap kind base rest) :=
  (node_at_quiet.bind fun _ => span_from_quiet).builds fun _ => push_builds

theorem set_doc_comment_quiet {i : Nat} {doc : Option String} :
    Quiet (Parser.setDocComment i doc) := by
  intro s r s' run
  rw [Parser.setDocComment] at run
  change (if _ then _ else _ : Parser Unit) s = _ at run
  split at run
  · cases run
    exact ⟨⟨_, rfl⟩, rfl, rfl, rfl, rfl⟩
  · cases run

section Quiet

variable {p : Parser α} {q : Parser β}

theorem Quiet.meets (own : Quiet p) (whole : Quiet q) (twin : Twin E s t) :
    Meets E p q s t (Steadily E Any) := by
  intro out run
  rcases step : p s with - | ⟨r, s'⟩
  · trivial
  obtain ⟨⟨a, rfl⟩, still⟩ := own s r s' step
  obtain ⟨r', t'⟩ := out
  obtain ⟨⟨b, rfl⟩, still'⟩ := whole t r' t' run
  exact ⟨twin.still still still', trivial⟩

theorem Quiet.level (own : Quiet p) (whole : Quiet q) (near : Near E s t) :
    Meets E p q s t (Both (Near E) Any) := by
  intro out run
  rcases step : p s with - | ⟨r, s'⟩
  · trivial
  obtain ⟨⟨a, rfl⟩, still⟩ := own s r s' step
  obtain ⟨r', t'⟩ := out
  obtain ⟨⟨b, rfl⟩, still'⟩ := whole t r' t' run
  exact ⟨near.still still still', trivial⟩

def NodeKind.uses (kind : NodeKind) : Bool × Bool := (kind.isIndexable, kind.isAssignable)

def Alike (i : Nat) (s : ParserState) (j : Nat) (t : ParserState) : Prop :=
  ∃ kind kind', kindAt s.nodes i = some kind ∧ kindAt t.nodes j = some kind' ∧
    kind.uses = kind'.uses

theorem Builds.meets {kind kind' : NodeKind} {p q : Parser Nat} {uses : Bool × Bool}
    (own : Builds kind p) (whole : Builds kind' q) (twin : Twin E s t) (same : kind.uses = uses)
    (same' : kind'.uses = uses) : Meets E p q s t (Steadily E Alike) := by
  intro out run
  rcases step : p s with - | ⟨r, s'⟩
  · trivial
  obtain ⟨i, rfl, still, at_i⟩ := own s r s' step
  obtain ⟨r', t'⟩ := out
  obtain ⟨j, rfl, still', at_j⟩ := whole t r' t' run
  exact ⟨twin.still still still', kind, kind', at_i, at_j, same.trans same'.symm⟩

theorem kind_of_at {i : Nat} {kind : NodeKind} (found : kindAt s.nodes i = some kind) :
    Parser.kindOf i s = some (.ok kind, s) := by
  obtain ⟨n, at_i, rfl⟩ := Option.map_eq_some_iff.mp found
  have read : Parser.nodeAt i s = some (.ok n, s) := by
    have here : (get : Parser ParserState) s = some (.ok s, s) := rfl
    simp only [Parser.nodeAt, run_bind, here, at_i]
    rfl
  rw [Parser.kindOf, run_bind, read]
  rfl

theorem Meets.kindOf {i j : Nat} {f : NodeKind → Parser γ} {f' : NodeKind → Parser δ}
    {P : γ → ParserState → Outcome δ → Prop} (alike : Alike i s j t)
    (next : ∀ kind kind', kind.isIndexable = kind'.isIndexable →
      kind.isAssignable = kind'.isAssignable → Meets E (f kind) (f' kind') s t P) :
    Meets E (Parser.kindOf i >>= f) (Parser.kindOf j >>= f') s t P := by
  obtain ⟨kind, kind', at_i, at_j, uses⟩ := alike
  intro out run
  rw [run_bind, kind_of_at at_j] at run
  rw [run_bind, kind_of_at at_i]
  exact next kind kind' (congrArg Prod.fst uses) (congrArg Prod.snd uses) out run

end Quiet

theorem finish_meets {kind kind' : NodeKind} {start start' : Span} {ids ids' : List Nat}
    (twin : Twin E s t) :
    Meets E (Parser.finish kind start ids) (Parser.finish kind' start' ids') s t
      (Steadily E Any) :=
  finish_builds.quiet.meets finish_builds.quiet twin

theorem finish_statement_meets {start start' : Span} (twin : Twin E s t) :
    Meets E (Parser.finishStatement start) (Parser.finishStatement start') s t
      (Both (Near E) Any) := by
  refine .current ?_
  rw [← twin.like.kind]
  refine .ite .rfl (fun _ => .take twin fun near => ?_) fun _ => .ite .rfl (fun _ => ?_) fun _ => ?_
  · exact .get <| .pure ⟨near, trivial⟩
  · exact .get <| .take twin fun near => .pure ⟨near, trivial⟩
  · exact .unexpected twin

theorem push_statement_meets {kind kind' : NodeKind} {start start' : Span} {ids ids' : List Nat}
    (twin : Twin E s t) :
    Meets E (Parser.pushStatement kind start ids) (Parser.pushStatement kind' start' ids') s t
      (Both (Near E) Any) := by
  refine (finish_statement_meets twin).behind fun span s span' t near _ => ?_
  exact push_builds.quiet.level push_builds.quiet near

theorem skip_level (twin : Twin E s t) :
    Meets E Parser.skip Parser.skip s t (Both (Near E) Any) := by
  rintro _ ⟨⟩
  exact ⟨twin.advance, trivial⟩

theorem starved_expect {kind : TokenKind} {expected : String} (ends : s.token.kind = .eof)
    (more : kind ≠ .eof) : Starved (Parser.expect kind expected) s := by
  change Starved (if decide (s.token.kind = kind) = true then _ else _) s
  rw [ends, if_neg (by simpa using more.symm)]
  exact starved_unexpected ends

theorem starved_mark {kind : TokenKind} {expected : String} {f : Unit → Parser γ}
    (ends : s.token.kind = .eof) (more : kind ≠ .eof) :
    Starved (discard (Parser.expect kind expected) >>= f) s :=
  (Starved.map (f := fun _ => ()) (starved_expect ends more)).bind

theorem eat_ends {kind : TokenKind} (ends : s.token.kind = .eof) (more : kind ≠ .eof) :
    Parser.eat kind s = some (.ok false, s) := by
  change (if decide (s.token.kind = kind) = true then _ else _ : Parser Bool) s = _
  rw [ends, decide_eq_false more.symm]
  rfl

theorem check_ends {kind : TokenKind} (ends : s.token.kind = .eof) (more : kind ≠ .eof) :
    Parser.check kind s = some (.ok false, s) := by
  change some (Except.ok (decide (s.token.kind = kind)), s) = _
  rw [ends, decide_eq_false more.symm]

theorem eat_operator_ends {op : String} (ends : s.token.kind = .eof) :
    Parser.eatOperator op s = some (.ok false, s) := by
  change (if s.token.isOperator op = true then _ else _ : Parser Bool) s = _
  have other : s.token.isOperator op = false := by
    rw [Token.isOperator, ends]
    rfl
  rw [other]
  rfl

end PhpAnalyser
