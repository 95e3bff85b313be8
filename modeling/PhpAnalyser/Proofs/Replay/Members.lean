import PhpAnalyser.Proofs.Replay.Declaration
import PhpAnalyser.Proofs.Replay.Items
/-!
The members that a type is read with stand in a row between its braces.
-/
namespace PhpAnalyser

variable {s s₁ s' : ParserState}

structure TakesOnly (P : TokenKind → Prop) (s s' : ParserState) : Prop where
  tokens : s'.tokens = s.tokens
  place_le : s.place ≤ s'.place
  all : ∀ j t, s.place ≤ j → j < s'.place → s.tokens[j]? = some t → P t.kind

namespace TakesOnly

variable {P : TokenKind → Prop}

theorem refl : TakesOnly P s s :=
  ⟨rfl, Nat.le_refl _, fun _ _ low high _ => absurd high (Nat.not_lt.mpr low)⟩

theorem trans (first : TakesOnly P s s₁) (second : TakesOnly P s₁ s') : TakesOnly P s s' where
  tokens := second.tokens.trans first.tokens
  place_le := Nat.le_trans first.place_le second.place_le
  all j t low high found := by
    by_cases early : j < s₁.place
    · exact first.all j t low early found
    · exact second.all j t (Nat.le_of_not_lt early) high (first.tokens ▸ found)

theorem advance (is : P s.token.kind) : TakesOnly P s s.advance := by
  by_cases ends : s.token.kind = .eof
  · rw [advance_of_eof ends]
    exact .refl
  refine ⟨tokens_advance, by rw [place_advance ends]; exact Nat.le_succ _, fun j t low high found => ?_⟩
  rw [place_advance ends] at high
  obtain rfl : j = s.place := by omega
  rw [s.token_at] at found
  exact Option.some.inj found ▸ is

end TakesOnly

def Braceless (p : Parser α) (s : ParserState) : Prop :=
  Succeeds p s fun _ s' => TakesOnly (· ≠ .leftBrace) s s'

namespace Braceless

variable {p : Parser α}

theorem pure {a : α} : Braceless (Pure.pure a : Parser α) s := Succeeds.pure .refl

theorem unexpected {expected : List String} : Braceless (Parser.unexpected expected : Parser α) s :=
  Succeeds.unexpected

theorem bind {f : α → Parser β} (first : Braceless p s) (second : ∀ a s₁, Braceless (f a) s₁) :
    Braceless (p >>= f) s :=
  Succeeds.bind first fun a s₁ took => (second a s₁).mono fun _ _ => took.trans

theorem skip {f : Unit → Parser β} (other : s.token.kind ≠ .leftBrace)
    (next : Braceless (f ()) s.advance) : Braceless (Parser.skip >>= f) s :=
  Succeeds.skip <| next.mono fun _ _ => (TakesOnly.advance other).trans

theorem ite {condition : Prop} [Decidable condition] {q : Parser α} (yes : condition → Braceless p s)
    (no : Braceless q s) : Braceless (if condition then p else q) s :=
  Succeeds.ite yes fun _ => no

theorem discarded (braceless : Braceless p s) : Braceless (discard p) s := Succeeds.discard braceless

theorem repeatFrom {step : β → Parser (ForInStep β)} {b : β} (each : ∀ b s, Braceless (step b) s) :
    Braceless (Parser.repeatFrom b step) s := by
  refine Succeeds.repeatFrom (I := fun _ s' => TakesOnly (· ≠ .leftBrace) s s') .refl
    fun b s₁ took => (each b s₁).mono fun r s₂ more => ?_
  cases r <;> exact took.trans more

theorem expect {kind : TokenKind} {expected : String} (other : kind ≠ .leftBrace) :
    Braceless (Parser.expect kind expected) s := by
  refine Succeeds.expect.mono ?_
  rintro t s' ⟨-, is, rfl⟩
  exact .advance (is ▸ other)

theorem eat {kind : TokenKind} (other : kind ≠ .leftBrace) :
    Braceless (Parser.eat kind) s := by
  refine Succeeds.check <| Succeeds.ite (fun is => .skip <| .pure (.advance ?_)) fun _ => .pure .refl
  rw [of_decide_eq_true is]
  exact other

theorem nameHead : Braceless Parser.nameHead s := by
  refine Succeeds.current <| Succeeds.ahead <| ite (fun is => ?_) <|
    ite (fun is => skip (by rw [is]; decide) pure) <|
      ite (fun is => skip (by rw [is]; decide) pure) unexpected
  simp only [Bool.and_eq_true, decide_eq_true_eq] at is
  exact skip (by rw [is.1]; decide) pure

theorem nameTail {written : String} : Braceless (Parser.nameTail written) s := by
  refine repeatFrom fun written s => Succeeds.current <| ite (fun _ => ?_) ?_
  · refine ite (fun word => skip ?_ pure) unexpected
    rintro brace
    rw [brace] at word
    cases word
  · refine Succeeds.ahead <| ite (fun is => ?_) pure
    simp only [Bool.and_eq_true, decide_eq_true_eq] at is
    exact skip (by rw [is.1]; decide) pure

theorem className : Braceless Parser.className s := by
  refine bind ?_ fun _ _ => Succeeds.get pure
  exact Succeeds.current <| nameHead.bind fun _ _ => nameTail.bind fun _ _ =>
    bind (Succeeds.get pure) fun _ _ => pure

theorem classNames : Braceless Parser.classNames s :=
  repeatFrom fun _ _ => bind className fun _ _ => bind (eat nofun) fun _ _ => ite (fun _ => pure) pure

theorem declaredName {expected : String} : Braceless (Parser.declaredName expected) s :=
  bind (expect nofun) fun _ _ => Succeeds.get pure

theorem classModifiers : Braceless Parser.classModifiers s :=
  repeatFrom fun _ _ => bind (eat nofun) fun _ _ => ite (fun _ => pure) <|
    bind (eat nofun) fun _ _ => ite (fun _ => pure) pure

theorem parentClass : Braceless Parser.parentClass s := by
  refine bind (eat nofun) fun _ _ => ite (fun _ => ?_) pure
  rw [← bind_pure_comp]
  exact bind className fun _ _ => pure

theorem typesBehind (word : Keyword) : Braceless (Parser.typesBehind word) s :=
  bind (eat nofun) fun _ _ => ite (fun _ => classNames) pure

end Braceless

def ParserState.Shut (s : ParserState) : Prop :=
  ∀ t, s.tokens[s.place - 1]? = some t → t.kind.isSeal = true

theorem ParserState.Shut.advance (more : s.token.kind ≠ .eof) (seals : s.token.kind.isSeal = true) :
    s.advance.Shut := by
  intro t found
  rw [place_advance more, Nat.add_sub_cancel, tokens_advance, s.token_at] at found
  exact Option.some.inj found ▸ seals

structure EndsAs (kind : NodeKind) (start : Span) (i : Nat) (s : ParserState) : Prop where
  made : ∃ n, s.nodes[i]? = some n ∧ n.kind = kind ∧ n.span = start.merge s.last
  shut : s.Shut

namespace Succeeds

variable {kind : NodeKind} {start : Span} {ids : List Nat}

theorem finish_ends (shut : s.Shut) :
    Succeeds (Parser.finish kind start ids) s (EndsAs kind start) := by
  refine finish.mono ?_
  rintro i s' ⟨rfl, rfl⟩
  exact ⟨⟨_, adopt_new, rfl, rfl⟩, shut⟩

/-- A statement ends with a semicolon or a close tag, which its span does not hold. -/
theorem finish_statement : Succeeds (Parser.finishStatement start) s fun span s' =>
    (s.token.kind = .semicolon ∨ s.token.kind = .closeTag) ∧ s' = s.advance ∧
      span = start.merge s'.last := by
  refine .current <| .ite (fun is => .skip <| .get <| .pure ⟨.inl is, rfl, rfl⟩) fun _ =>
    .ite (fun tag => ?_) fun _ => .unexpected
  have span : Parser.spanFrom start s = some (.ok (start.merge s.last), s) := rfl
  refine .run span <| .skip <| .pure ⟨.inr tag, rfl, ?_⟩
  rw [last_advance (by rw [tag]; decide), if_pos tag]

theorem finish_statement_shuts : Succeeds (Parser.finishStatement start) s fun span s' =>
    span = start.merge s'.last ∧ s'.Shut := by
  refine finish_statement.mono ?_
  rintro span s' ⟨mark, rfl, same⟩
  refine ⟨same, ?_⟩
  rcases mark with is | is <;> exact .advance (by rw [is]; decide) (by rw [is]; rfl)

theorem push_statement_ends : Succeeds (Parser.pushStatement kind start ids) s (EndsAs kind start) := by
  refine finish_statement_shuts.bind fun span s₁ ⟨same, shut⟩ => push.mono ?_
  rintro i s' ⟨rfl, rfl⟩
  exact ⟨⟨_, adopt_new, rfl, same⟩, shut⟩

theorem block_shuts {g : Nested} : Succeeds (Parser.block g) s fun _ s' => s'.Shut := by
  refine .then_ fun _ _ => .then_ fun ids s₁ => .bind (R := fun _ s' => s'.Shut) ?_ fun _ s₂ shut => ?_
  · refine .discard <| expect.mono ?_
    rintro t s₂ ⟨-, is, rfl⟩
    exact .advance (by rw [is]; decide) (by rw [is]; rfl)
  · exact (finish_ends shut).mono fun _ _ ends => ends.shut

/-- Only a constant does not start with its modifiers. -/
theorem modified_ends {g : Nested} {stateful : Bool} {modifiers : Modifiers} :
    Succeeds (Parser.modified g stateful start modifiers) s fun i s' =>
      (s.token.kind = .keyword .const_ ∧ EndsAs .constantDeclaration s.token.span i s') ∨
      (s.token.kind ≠ .closeTag ∧ ∃ kind, EndsAs kind start i s') := by
  refine .current <| .ite (fun is => ?_) fun _ => .ite (fun is => ?_) fun _ => .ite (fun is => ?_)
    fun _ => .unexpected
  · exact .advance <| .then_ fun _ _ => push_statement_ends.mono fun _ _ ends => .inl ⟨is, ends⟩
  · have solid : s.token.kind ≠ .closeTag := by rw [is]; decide
    refine .skip <| .then_ fun _ _ => .then_ fun _ _ => .then_ fun _ _ => .then_ fun _ s₁ =>
      .eat (fun semicolon => ?_) fun _ => ?_
    · refine (finish_ends ?_).mono fun _ _ ends => .inr ⟨solid, _, ends⟩
      exact .advance (by rw [semicolon]; decide) (by rw [semicolon]; rfl)
    · refine .bind (R := fun _ s' => s'.Shut) (block_shuts.bind fun _ _ shut => .pure shut)
        fun _ _ shut => (finish_ends shut).mono fun _ _ ends => .inr ⟨solid, _, ends⟩
  · refine .then_ fun _ _ => .then_ fun _ _ => push_statement_ends.mono fun _ _ ends =>
      .inr ⟨fun tag => ?_, _, ends⟩
    simp [tag, Parser.startsProperty] at is

theorem trait_rules_shut : Succeeds (Parser.traitRules start) s fun _ s' => s'.Shut := by
  refine .eat (fun _ => ?_) fun _ => ?_
  · refine repeatFrom (I := fun _ _ => True) trivial fun rules s _ => .eat (fun closes => .pure ?_)
      fun _ => .then_ fun _ _ => .pure trivial
    exact .advance (by rw [closes]; decide) (by rw [closes]; rfl)
  · exact .bind (.discard (Q := fun _ s' => s'.Shut) (finish_statement_shuts.mono fun _ _ is => is.2))
      fun _ _ shut => .pure shut

theorem trait_use_ends : Succeeds Parser.traitUse s fun i s' => ∃ kind, EndsAs kind s.token.span i s' :=
  .advance <| .then_ fun _ _ => trait_rules_shut.bind fun _ _ shut =>
    (finish_ends shut).mono fun _ _ ends => ⟨_, ends⟩

/-- Only modifiers are taken. -/
theorem member_modifiers_take : Succeeds Parser.memberModifiers s fun _ s' =>
    TakesOnly (·.isModifier) s s' := by
  refine repeatFrom (I := fun _ s' => TakesOnly (·.isModifier) s s') .refl fun modifiers s₁ took =>
    .current ?_
  split
  next known =>
    obtain ⟨word, keyword, known⟩ := Option.bind_eq_some_iff.mp known
    refine .skip <| .pure <| took.trans <| .advance ?_
    rw [TokenKind.isModifier, keyword]
    revert known
    cases word <;> first | exact fun _ => rfl | exact nofun
  next => exact .pure took

end Succeeds

/-- A node from the token behind some modifiers to the last one taken. -/
theorem EndsAs.member {kind : NodeKind} {i : Nat} (ends : EndsAs kind s₁.token.span i s')
    {steady : Bool} (passage : Passage steady s₁ s') (moves : s₁.place < s'.place) (front : TakesOnly (·.isModifier) s s₁)
    (solid : s₁.token.kind ≠ .closeTag)
    (constant : s.place < s₁.place →
      s₁.token.kind = .keyword .const_ ∧ kind = .constantDeclaration) :
    ∃ first last, MemberAt s'.tokens s'.nodes s.place s'.place i first last := by
  obtain ⟨n, found, rfl, span⟩ := ends.made
  have shut := ends.shut
  rw [ParserState.Shut, passage.tokens] at shut
  obtain ⟨last, u, le, lt, there, inside, same, behind⟩ :=
    passage.trails.reached (Nat.le_refl _) moves s₁.token_at solid
  rw [passage.tokens]
  refine ⟨s₁.place, last, ?_⟩
  exact {
    low_le := front.place_le
    first_le := le
    last_lt := lt
    spans := ⟨s₁.token, u, n, s₁.token_at, there, found, by rw [span, same], solid, inside, constant⟩
    front := fun j t low high found => front.all j t low high (front.tokens ▸ found)
    behind
    shut }

namespace Replays

variable {α : Type} {W : Overlap} {k : Bool} {g g' : Nested} (tracks : Tracks W g g')

theorem passage [Renumber α] {k' : Bool} {m : Reach} {p q : Parser α} (replays : Replays W k k' m p q s) :
    Succeeds p s fun _ s' => s'.errors = [] → Passage W.steady s s' :=
  fun a s' run clean => (replays a s' run clean).1

theorem moves [Renumber α] {k' : Bool} {p q : Parser α} (replays : Replays W k k' .closing p q s) :
    Moves p s :=
  fun a s' run clean => (replays a s' run clean).2.1.place_lt

include tracks

theorem modified_moves (stateful : Bool) (start : Span) (modifiers : Modifiers) :
    Moves (Parser.modified g stateful start modifiers) s :=
  Succeeds.current <| .ite (fun is => (constantDeclaration (k := true) tracks (.of_word is)).moves)
    fun _ => .ite (fun is => (method (k := true) tracks _ _ (.of_word is)).2) fun _ =>
      .ite (fun _ => (propertyDeclaration tracks _ _).moves) fun _ => .unexpected

theorem modified_at {modifiers : Modifiers} {stateful : Bool} (front : TakesOnly (·.isModifier) s s₁)
    (taken : s₁.errors = [] → Passage W.steady s s₁) :
    Succeeds (Parser.modified g stateful s.token.span modifiers) s₁ fun i s' => s'.errors = [] →
      ∃ first last, MemberAt s'.tokens s'.nodes s.place s'.place i first last := by
  intro i s' run clean
  have passage := (modified tracks stateful _ modifiers).passage i s' run clean
  have moves := modified_moves tracks stateful _ modifiers i s' run clean
  rcases Succeeds.modified_ends i s' run with ⟨is, ends⟩ | ⟨solid, kind, ends⟩
  · exact ends.member passage moves front (by rw [is]; decide) fun _ => ⟨is, rfl⟩
  · refine ends.member ((taken passage.clean).trans passage) (Nat.lt_of_le_of_lt front.place_le moves)
      .refl ?_ fun behind => absurd behind (Nat.lt_irrefl _)
    rcases Nat.lt_or_eq_of_le front.place_le with moved | same
    · have modifier := front.all s.place _ (Nat.le_refl _) moved s.token_at
      intro tag
      rw [tag] at modifier
      cases modifier
    · have found := s₁.token_at
      rw [front.tokens, ← same, s.token_at] at found
      exact Option.some.inj found ▸ solid

theorem member_at (stateful : Bool) :
    Succeeds (Parser.member g stateful) s fun i s' => s'.errors = [] →
      ∃ first last, MemberAt s'.tokens s'.nodes s.place s'.place i first last := by
  refine .check <| .ite (fun is => ?_) fun _ => .current ?_
  · simp only [Bool.and_eq_true, decide_eq_true_eq] at is
    have leads := ParserState.Leads.of_word is.2
    intro i s' run clean
    obtain ⟨kind, ends⟩ := Succeeds.trait_use_ends i s' run
    have both := traitUse (W := W) leads
    exact ends.member (both.1.passage i s' run clean) (both.2 i s' run clean) .refl leads.solid
      fun behind => absurd behind (Nat.lt_irrefl _)
  · refine .bind (R := fun _ s₁ => TakesOnly (·.isModifier) s s₁ ∧ (s₁.errors = [] → Passage W.steady s s₁))
      (fun modifiers s₁ run => ⟨Succeeds.member_modifiers_take _ _ run,
        (memberModifiers (W := W)).passage _ _ run⟩) fun modifiers s₁ ⟨front, taken⟩ => ?_
    refine .bind (modified_at tracks front taken) fun i s₂ there => ?_
    intro j s' run clean
    obtain ⟨_, s₃, annotated, same⟩ := ok_of_bind run
    cases same
    rw [set_doc_comment_run] at annotated
    split at annotated <;> cases annotated
    obtain ⟨first, last, member⟩ := there clean
    exact ⟨first, last, member.develops annotate_develops⟩

/-- Behind the members there is the closing brace, which is the last token. -/
theorem members_lined (stateful : Bool) :
    Succeeds (Parser.members g stateful) s fun ids s' => s'.errors = [] →
      s.token.kind = .leftBrace ∧ ∃ closing t, s'.tokens[closing]? = some t ∧
        t.kind = .rightBrace ∧ s'.last = t.span ∧ s'.tokens = s.tokens ∧
          Lined s'.tokens s'.nodes (s.place + 1) closing ids := by
  refine .bind (R := fun _ s₁ => s.token.kind = .leftBrace ∧ s₁ = s.advance)
    (.discard <| Succeeds.expect.mono fun _ _ is => ⟨is.2.1, is.2.2⟩) ?_
  rintro _ _ ⟨opens, rfl⟩
  have more : s.token.kind ≠ .eof := by rw [opens]; decide
  refine .bind (Succeeds.recovering_clean (I := fun ids s₁ => s₁.tokens = s.tokens ∧
    Lined s₁.tokens s₁.nodes (s.place + 1) s₁.place ids) (fun _ => ?_) ?_) fun ids s₁ before => ?_
  · exact ⟨tokens_advance, by rw [place_advance more]; exact .nil _⟩
  · intro ids s₁ found s₂ _ _ run clean
    obtain ⟨i, s₃, read, same⟩ := ok_of_bind run
    cases same
    have passage := (member (W := W) tracks stateful).passage i s₂ read clean
    obtain ⟨first, last, here⟩ := member_at tracks stateful i s₂ read clean
    refine ⟨passage.clean, fun ⟨tokens, lined⟩ => ⟨passage.tokens.trans tokens, ?_⟩⟩
    rw [passage.tokens] at here ⊢
    exact (lined.develops passage.nodes).append (.cons here (.nil _))
  · refine .bind (R := fun _ s₂ => s₁.token.kind = .rightBrace ∧ s₂ = s₁.advance)
      (.discard <| Succeeds.expect.mono fun _ _ is => ⟨is.2.1, is.2.2⟩) ?_
    rintro _ _ ⟨closes, rfl⟩
    refine .pure fun clean => ?_
    obtain ⟨⟨tokens, lined⟩, -⟩ := before (errors_advance.symm.trans clean)
    have more' : s₁.token.kind ≠ .eof := by rw [closes]; decide
    refine ⟨opens, s₁.place, s₁.token, ?_, closes, ?_, ?_, ?_⟩
    · rw [tokens_advance]
      exact s₁.token_at
    · rw [last_advance more', if_neg (by rw [closes]; decide)]
    · rw [tokens_advance, tokens]
    · rwa [tokens_advance, nodes_advance]

omit tracks in
/-- The type of a header without braces and of the members behind it. -/
theorem membered {kind : NodeKind} {header : ParserState} {ids : List Nat} {closing : Nat} {t : Token}
    (before : TakesOnly (· ≠ .leftBrace) header s) (opens : s.token.kind = .leftBrace)
    (found : s'.tokens[closing]? = some t) (closes : t.kind = .rightBrace) (last : s'.last = t.span)
    (tokens : s'.tokens = s.tokens)
    (lined : Lined s'.tokens s'.nodes (s.place + 1) closing ids) :
    Membered s'.tokens (adopt s'.nodes kind (header.token.span.merge s'.last) ids)
      ⟨kind, header.token.span.merge s'.last, none, ids, none, []⟩ header.place s.place closing where
  start_le := before.place_le
  spans := by
    refine ⟨header.token, s.token, t, ?_, ?_, found, by rw [last], opens, closes⟩
    · rw [tokens, before.tokens]
      exact header.token_at
    · rw [tokens]
      exact s.token_at
  header j u low high there := before.all j u low high (before.tokens ▸ tokens ▸ there)
  body := lined.develops adopt_develops

omit tracks in
theorem declare {kind : NodeKind} {start : Token} {ids : List Nat}
    (type : kind.isTypeDeclaration = true → s.errors = [] →
      ∃ first opening closing, Membered s.tokens (adopt s.nodes kind (start.span.merge s.last) ids)
        ⟨kind, start.span.merge s.last, none, ids, none, []⟩ first opening closing) :
    Replays W true true .resting (Parser.declare kind start ids)
      (Parser.declare kind start (W.shift ids)) s := by
  refine .then_ (.then_ .spanFrom fun span s₁ run => ?_) fun i _ _ =>
    .then_ .setDocComment fun _ _ _ => .pure rfl
  cases run
  exact .make rfl type

/-- The members and the end of a type whose header has been read. -/
theorem typeBody {kind : NodeKind} {header : ParserState} {scope : Option TypeScope} {stateful : Bool}
    (before : TakesOnly (· ≠ .leftBrace) header s) :
    Replays W true true .closing
      (do
        let body ← Parser.withScope scope (Parser.members g stateful)
        Parser.declare kind header.token body)
      (do
        let body ← Parser.withScope scope (Parser.members g' stateful)
        Parser.declare kind header.token body) s := by
  refine .then_ (.withScope (members tracks stateful)) fun ids s' run => .declare fun _ clean => ?_
  rw [with_scope_run] at run
  obtain ⟨⟨result, s₁⟩, read, same⟩ := Option.bind_eq_some_iff.mp run
  cases same
  obtain ⟨opens, closing, t, found, closes, last, tokens, lined⟩ :=
    members_lined tracks stateful ids s₁ read clean
  exact ⟨header.place, s.place, closing, membered before opens found closes last tokens lined⟩

theorem classDeclaration :
    Replays W k true .closing (Parser.classDeclaration g) (Parser.classDeclaration g') s := by
  refine .current <| .bind classModifiers fun _ _ modifiers => .bind (.discarded (.expect rfl))
    fun _ _ word => .bind (declaredName _) fun _ _ named => .bind parentClass fun _ _ extends_ =>
      .bind (typesBehind _) fun _ _ implements => typeBody tracks ?_
  have opened {s : ParserState} : Braceless (Parser.expect (.keyword .class_) "'class'") s :=
    .expect nofun
  have words := (Braceless.classModifiers _ _ modifiers).trans (opened.discarded _ _ word)
  have parents := (Braceless.parentClass _ _ extends_).trans (Braceless.typesBehind _ _ _ implements)
  exact words.trans ((Braceless.declaredName _ _ named).trans parents)

variable {word : Keyword} (is : s.token.kind = .keyword word)
include is

theorem interfaceDeclaration :
    Replays W k true .closing (Parser.interfaceDeclaration g) (Parser.interfaceDeclaration g') s := by
  refine .advancing (.of_word is) <| .bind (declaredName _) fun _ _ named =>
    .bind (typesBehind _) fun _ _ extends_ => typeBody tracks ?_
  exact (TakesOnly.advance (is ▸ nofun)).trans
    ((Braceless.declaredName _ _ named).trans (Braceless.typesBehind _ _ _ extends_))

theorem traitDeclaration :
    Replays W k true .closing (Parser.traitDeclaration g) (Parser.traitDeclaration g') s := by
  refine .advancing (.of_word is) <| .bind (declaredName _) fun _ _ named => typeBody tracks ?_
  exact (TakesOnly.advance (is ▸ nofun)).trans (Braceless.declaredName _ _ named)

theorem functionDeclaration :
    Replays W k true .closing (Parser.functionDeclaration g) (Parser.functionDeclaration g') s :=
  .advancing (.of_word is) <| .bind .eatOperator fun _ _ _ => .bind (declaredName _) fun _ _ _ =>
    .then_ (.withScope (functionBody tracks)) fun _ _ _ => .declare fun type => by cases type

end Replays

end PhpAnalyser
