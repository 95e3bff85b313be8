import PhpAnalyser.Proofs.Lockstep.Unit
import PhpAnalyser.Proofs.Replay.Judgement
/-!
The steps that readers are made of, read again in another text: tokens taken, nodes made, loops and
names.
-/
namespace PhpAnalyser

variable {α β : Type}

structure ParserState.Leads (s : ParserState) : Prop where
  plain : s.Plain
  more : s.token.kind ≠ .eof
  solid : s.token.kind ≠ .closeTag

def TokenKind.isSolid : TokenKind → Bool
  | leftParen | rightParen | closeTag | eof => false
  | _ => true

theorem ParserState.Leads.of_kind {s : ParserState} {kind : TokenKind} (is : s.token.kind = kind)
    (solid : kind.isSolid = true) : s.Leads where
  plain := .of_kind is (by cases kind <;> first | rfl | cases solid)
  more := by rw [is]; rintro rfl; cases solid
  solid := by rw [is]; rintro rfl; cases solid

theorem ParserState.Leads.of_word {s : ParserState} {word : Keyword}
    (is : s.token.kind = .keyword word) : s.Leads := .of_kind is rfl

theorem ParserState.Leads.of_solid {s : ParserState} (solid : s.token.kind.isSolid = true) :
    s.Leads := .of_kind rfl solid

theorem solid_of_word {kind : TokenKind} (word : Parser.isWord kind = true) :
    kind.isSolid = true := by
  cases kind <;> first | rfl | cases word

theorem ParserState.Leads.of_operator {s : ParserState} {op : String}
    (is : s.token.isOperator op = true) : s.Leads := by
  simp only [Token.isOperator, Bool.and_eq_true, decide_eq_true_eq] at is
  exact .of_kind is.1 rfl

/-- The other text has as many tokens left, unless it is shorter. -/
theorem Beside.remaining_le {W : Overlap} {k : Bool} {s t : ParserState} (beside : Beside W k s t)
    (roomy : W.Roomy) : s.stream.remaining ≤ t.stream.remaining := by
  have own : s.stream.tokens = W.own := beside.own
  have whole : t.stream.tokens = W.whole := beside.whole
  have place : t.stream.position = s.stream.position + W.gap := beside.place
  unfold Overlap.Roomy at roomy
  simp only [TokenStream.remaining, own, whole, place]
  omega

/-- The other reader takes the item as well. -/
theorem Follows.listStep {W : Overlap} {k : Bool} {item' : Parser (List Nat)} {stop : Token → Bool}
    {items ids : List Nat} {s' t : ParserState} (follows : Follows W k item' t (W.shift ids) s')
    (more : t.token.kind ≠ .eof) (goes : stop t.token = false) :
    Follows W k (PhpAnalyser.listStep stop item' (W.shift items)) t
      (W.shift (ForInStep.yield (items ++ ids))) s' := by
  unfold Follows
  rw [list_step_run more goes]
  rcases follows with ⟨t', run, beside⟩ | ⟨stuck, short⟩
  · rw [run]
    refine .inl ⟨t', ?_, beside⟩
    have appended := Renumber.shift_append W.front.size items ids
    exact congrArg (fun ids => some (Except.ok (ForInStep.yield ids), t')) appended.symm
  · rw [stuck]
    exact .inr ⟨rfl, short⟩

namespace Replays

variable {W : Overlap} {k k' : Bool} {m : Reach} {s : ParserState}

section Take

variable [Renumber α] {p q : Parser α} {a : α}

/-- Both readers take the current token. -/
theorem take [active : m.Active] (leads : s.Leads) (own : p s = some (.ok a, s.advance))
    (whole : ∀ t, t.token = s.token → q t = some (.ok (W.shift a), t.advance))
    (shut : m = .closing → s.token.kind.isSeal = true) :
    Replays W k true m p q s := by
  intro a' s' run clean
  cases own.symm.trans run
  rw [errors_advance] at clean
  refine ⟨.advance clean leads.plain, ?_, fun t beside enters _ => ?_⟩
  · cases m with
    | inner => trivial
    | resting => exact absurd rfl active.not_resting
    | closing =>
      refine ⟨by rw [place_advance leads.more]; exact Nat.lt_succ_self _, fun t found => ?_⟩
      rw [place_advance leads.more, Nat.add_sub_cancel, tokens_advance, s.token_at] at found
      exact Option.some.inj found ▸ shut rfl
  · have inside := enters.lt
    exact .inl ⟨t.advance, whole t (beside.token inside),
      beside.advance_known inside leads.more leads.solid⟩

end Take

theorem skip (leads : s.Leads) : Replays W k true .inner Parser.skip Parser.skip s :=
  .take leads (a := ()) rfl (fun _ _ => rfl) (by rintro ⟨⟩)

theorem skip_seal (leads : s.Leads) (seals : s.token.kind.isSeal = true) :
    Replays W k true .closing Parser.skip Parser.skip s :=
  .take leads (a := ()) rfl (fun _ _ => rfl) (fun _ => seals)

theorem advance (leads : s.Leads) : Replays W k true .inner Parser.advance Parser.advance s :=
  .take leads (a := s.token) rfl (fun t same => by rw [← same]; rfl) (by rintro ⟨⟩)

/-- Whatever token is taken, what is known of the last one stays known. -/
theorem skip_any (plain : s.Plain) : Replays W k k .inner Parser.skip Parser.skip s := by
  intro a s' run clean
  cases run
  rw [errors_advance] at clean
  exact ⟨.advance clean plain, trivial, fun t beside enters _ =>
    .inl ⟨t.advance, rfl, beside.advance enters⟩⟩

/-- A close tag leaves the last token as it was. -/
theorem skip_tag (tag : s.token.kind = .closeTag) :
    Replays W k k .closing Parser.skip Parser.skip s := by
  have more : s.token.kind ≠ .eof := by rw [tag]; decide
  intro a s' run clean
  cases run
  rw [errors_advance] at clean
  refine ⟨.advance clean (.of_kind tag rfl), ⟨?_, fun t found => ?_⟩, fun t beside enters _ => ?_⟩
  · rw [place_advance more]
    exact Nat.lt_succ_self _
  · rw [place_advance more, Nat.add_sub_cancel, tokens_advance, s.token_at] at found
    rw [← Option.some.inj found, tag]
    rfl
  · exact .inl ⟨t.advance, rfl, beside.advance enters⟩

/-- What is read behind the current token. -/
theorem skipping [m.Active] [Renumber α] {f f' : Unit → Parser α} (leads : s.Leads)
    (next : Replays W true k' m (f ()) (f' ()) s.advance) :
    Replays W k k' m (Parser.skip >>= f) (Parser.skip >>= f') s :=
  .bind (.skip leads) fun _ _ run => by cases run; exact next

theorem advancing [m.Active] [Renumber α] {f f' : Token → Parser α} (leads : s.Leads)
    (next : Replays W true k' m (f s.token) (f' s.token) s.advance) :
    Replays W k k' m (Parser.advance >>= f) (Parser.advance >>= f') s :=
  .bind (.advance leads) fun _ _ run => by cases run; exact next

def Moves (p : Parser α) (s : ParserState) : Prop :=
  Succeeds p s fun _ s' => s'.errors = [] → s.place < s'.place

theorem moves_behind [Renumber α] {p q r : Parser α} (leads : s.Leads)
    (next : Replays W k k' m p q s.advance) (same : r s = p s.advance) : Moves r s := by
  intro a s' run clean
  have low := (next a s' (same ▸ run) clean).1.place_le
  rw [place_advance leads.more] at low
  exact low

/-- What is read behind the current token moves. -/
theorem skipping_moves [m.Active] [Renumber α] {f f' : Unit → Parser α} (leads : s.Leads)
    (next : Replays W true k' m (f ()) (f' ()) s.advance) :
    Replays W k k' m (Parser.skip >>= f) (Parser.skip >>= f') s ∧ Moves (Parser.skip >>= f) s :=
  ⟨.skipping leads next, moves_behind leads next rfl⟩

theorem advancing_moves [m.Active] [Renumber α] {f f' : Token → Parser α} (leads : s.Leads)
    (next : Replays W true k' m (f s.token) (f' s.token) s.advance) :
    Replays W k k' m (Parser.advance >>= f) (Parser.advance >>= f') s ∧
      Moves (Parser.advance >>= f) s :=
  ⟨.advancing leads next, moves_behind leads next rfl⟩

section Check

variable [Renumber α] {f f' : Bool → Parser α}

theorem check [m.Active] {kind : TokenKind}
    (next : Replays W k k' m (f (decide (s.token.kind = kind))) (f' (decide (s.token.kind = kind))) s) :
    Replays W k k' m (Parser.check kind >>= f) (Parser.check kind >>= f') s := by
  refine next.of_eq rfl fun t beside enters => ?_
  change f' (decide (t.token.kind = kind)) t = _
  rw [beside.token enters.lt]

/-- The token behind the stretch is of another kind in both texts. -/
theorem check_edge {kind : TokenKind}
    (edge : ∀ t, W.own[W.stop]? = some t ∨ W.whole[W.stop + W.gap]? = some t → t.kind ≠ kind)
    (next : Replays W k k' m (f (decide (s.token.kind = kind))) (f' (decide (s.token.kind = kind))) s) :
    Replays W k k' m (Parser.check kind >>= f) (Parser.check kind >>= f') s := by
  refine next.of_eq rfl fun t beside enters => ?_
  change f' (decide (t.token.kind = kind)) t = _
  have le : s.place ≤ W.stop := by
    cases m with
    | resting => exact enters
    | _ => exact Nat.le_of_lt enters
  rcases Nat.lt_or_eq_of_le le with inside | behind
  · rw [beside.token inside]
  · have own : s.token.kind ≠ kind := edge _ <| .inl <| by
      rw [← behind, ← beside.own]
      exact s.token_at
    have whole : t.token.kind ≠ kind := edge _ <| .inr <| by
      rw [← behind, ← beside.place, ← beside.whole]
      exact t.token_at
    rw [decide_eq_false own, decide_eq_false whole]

/-- Behind the stretch there is no word that goes on with a statement. -/
theorem check_bare {kind : TokenKind} (resumes : kind.resumes = true)
    (next : Replays W k k' m (f (decide (s.token.kind = kind))) (f' (decide (s.token.kind = kind))) s) :
    Replays W k k' m (Parser.check kind >>= f) (Parser.check kind >>= f') s := by
  refine .check_edge (fun t found same => ?_) next
  have bare := W.bare t found
  rw [same, resumes] at bare
  cases bare

theorem checkOperator [m.Active] {op : String}
    (next : Replays W k k' m (f (s.token.isOperator op)) (f' (s.token.isOperator op)) s) :
    Replays W k k' m (Parser.checkOperator op >>= f) (Parser.checkOperator op >>= f') s := by
  refine next.of_eq rfl fun t beside enters => ?_
  change f' (t.token.isOperator op) t = _
  rw [beside.token enters.lt]

end Check

theorem eat {kind : TokenKind} (solid : kind.isSolid = true) :
    Replays W k k .inner (Parser.eat kind) (Parser.eat kind) s :=
  .check <| .ite (fun is => .bind (.forget (.skip (.of_kind (of_decide_eq_true is) solid)))
    fun _ _ _ => .pure rfl) fun _ => .pure rfl

/-- A token that seals what was read and is none behind the stretch. -/
theorem eat_edge {kind : TokenKind}
    (edge : ∀ t, W.own[W.stop]? = some t ∨ W.whole[W.stop + W.gap]? = some t → t.kind ≠ kind)
    (solid : kind.isSolid = true) (seals : kind.isSeal = true) :
    Replays W k k .resting (Parser.eat kind) (Parser.eat kind) s := by
  refine .check_edge edge <| .ite (fun is => ?_) fun _ => .pure rfl
  have is := of_decide_eq_true is
  refine .rest (.forget ?_) fun found => edge s.token (.inl found) is
  exact .then_ (.skip_seal (.of_kind is solid) (is ▸ seals)) fun _ _ _ => .pure rfl

theorem eatOperator {op : String} :
    Replays W k k .inner (Parser.eatOperator op) (Parser.eatOperator op) s :=
  .checkOperator <| .ite (fun is => .bind (.forget (.skip (.of_operator is))) fun _ _ _ => .pure rfl)
    fun _ => .pure rfl

theorem expect {kind : TokenKind} {expected : String} (solid : kind.isSolid = true) :
    Replays W k true .inner (Parser.expect kind expected) (Parser.expect kind expected) s :=
  .check <| .ite (fun is => .advance (.of_kind (of_decide_eq_true is) solid)) fun _ => .unexpected

/-- The token that is expected seals what was read. -/
theorem expect_seal {kind : TokenKind} {expected : String} (solid : kind.isSolid = true)
    (seals : kind.isSeal = true) :
    Replays W k true .closing (Parser.expect kind expected) (Parser.expect kind expected) s :=
  .check <| .ite (fun is => .take (.of_kind (of_decide_eq_true is) solid) (a := s.token) rfl
    (fun t same => by rw [← same]; rfl) fun _ => (of_decide_eq_true is).symm ▸ seals)
    fun _ => .unexpected

theorem expectOperator {op expected : String} :
    Replays W k true .inner (Parser.expectOperator op expected)
      (Parser.expectOperator op expected) s :=
  .checkOperator <| .ite (fun is => .skip (.of_operator is)) fun _ => .unexpected

structure Opens (o : Parser α) : Prop where
  own : ∀ s a s', o s = some (.ok a, s') → s.token.kind = .leftParen ∧ s' = s.advance
  same : ∀ s a s' t, o s = some (.ok a, s') → t.token = s.token → o t = some (.ok a, t.advance)

theorem opens_expect {expected : String} : Opens (Parser.expect .leftParen expected) := by
  have own : ∀ s a s', Parser.expect .leftParen expected s = some (.ok a, s') →
      a = s.token ∧ s.token.kind = .leftParen ∧ s' = s.advance := fun s => Succeeds.expect
  refine ⟨fun s a s' run => (own s a s' run).2, fun s a s' t run same => ?_⟩
  obtain ⟨rfl, is, -⟩ := own s a s' run
  change (if decide (t.token.kind = .leftParen) = true then _ else _ : Parser Token) t = _
  rw [if_pos (decide_eq_true (same ▸ is)), ← same]
  rfl

theorem Opens.discard {o : Parser α} (opens : Opens o) : Opens (discard o) := by
  have unfolded : Functor.discard o = o >>= fun _ => Pure.pure () := (bind_pure_comp _ o).symm
  have split : ∀ s a s', (Functor.discard o) s = some (.ok a, s') → ∃ b, o s = some (.ok b, s') := by
    intro s a s' run
    rw [unfolded] at run
    obtain ⟨b, s₁, read, last⟩ := ok_of_bind run
    cases last
    exact ⟨b, read⟩
  refine ⟨fun s a s' run => ?_, fun s a s' t run same => ?_⟩
  · obtain ⟨b, read⟩ := split s a s' run
    exact opens.own s b s' read
  · obtain ⟨b, read⟩ := split s a s' run
    rw [unfolded, run_bind, opens.same s b s' t read same]
    rfl

theorem run_closing {expected : String} {s s' : ParserState} {u : Unit}
    (run : (discard (Parser.expect .rightParen expected) : Parser Unit) s = some (.ok u, s')) :
    s.token.kind = .rightParen ∧ s' = s.advance :=
  Succeeds.discard (Q := fun _ s' => s.token.kind = .rightParen ∧ s' = s.advance)
    (Succeeds.expect.mono fun _ _ is => ⟨is.2.1, is.2.2⟩) u s' run

theorem closing_run {expected : String} {s : ParserState} (closes : s.token.kind = .rightParen) :
    (discard (Parser.expect .rightParen expected) : Parser Unit) s = some (.ok (), s.advance) := by
  have read : Parser.expect .rightParen expected s = some (.ok s.token, s.advance) := by
    change (if decide (s.token.kind = .rightParen) = true then _ else _ : Parser Token) s = _
    rw [if_pos (decide_eq_true closes)]
    rfl
  change ((fun _ => ()) <$> Parser.expect .rightParen expected) s = _
  rw [← bind_pure_comp, run_bind, read]
  rfl

end Replays

def enclosed (expected : String) (o : Parser α) (p : α → Parser β) : Parser (α × β) := do
  let a ← o
  let b ← p a
  discard <| Parser.expect .rightParen expected
  return (a, b)

def between (p : Parser β) : Parser β := do
  discard <| Parser.expect .leftParen "'('"
  let b ← p
  discard <| Parser.expect .rightParen "')'"
  return b

namespace Replays

variable {W : Overlap} {k k' : Bool} {m : Reach} {s : ParserState}

section Parens

variable {γ : Type} [Renumber β] [Renumber γ] {o : Parser α} {p p' : α → Parser β}
  {f f' : α → β → Parser γ} {l : Bool} {n : Reach} {expected : String}

/-- Both readers read the same between parentheses. -/
theorem enclosed [Renumber α] (opens : Opens o) (inert : ∀ a : α, W.shift a = a)
    (inner : ∀ a, Replays W true l n (p a) (p' a) s.advance) :
    Replays W k true .closing (enclosed expected o p) (PhpAnalyser.enclosed expected o p') s := by
  intro c s' run clean
  obtain ⟨a, s₀, read, run⟩ := ok_of_bind run
  obtain ⟨opening, rfl⟩ := opens.own s a s₀ read
  obtain ⟨b, s₁, middle, run⟩ := ok_of_bind run
  obtain ⟨u, s₂, last, run⟩ := ok_of_bind run
  obtain ⟨closing, rfl⟩ := run_closing last
  cases run
  have clean₁ : s₁.errors = [] := errors_advance.symm.trans clean
  obtain ⟨passage, -, follows⟩ := inner a b s₁ middle clean₁
  have more : s.token.kind ≠ .eof := by rw [opening]; decide
  have more' : s₁.token.kind ≠ .eof := by rw [closing]; decide
  have low := passage.place_le
  rw [place_advance more] at low
  refine ⟨passage.parens opening closing, ⟨?_, fun t found => ?_⟩, fun t beside enters leaves => ?_⟩
  · rw [place_advance more']
    omega
  · rw [place_advance more', Nat.add_sub_cancel, tokens_advance, s₁.token_at] at found
    rw [← Option.some.inj found, closing]
    rfl
  have inside : s₁.place < W.stop := by
    have leaves : s₁.advance.place ≤ W.stop := leaves
    rwa [place_advance more'] at leaves
  have start : s.advance.place < W.stop := by rw [place_advance more]; omega
  have opened := beside.advance_known enters more (by rw [opening]; decide)
  have run₀ := opens.same s a _ t read (beside.token enters)
  have rest := (follows t.advance opened (Reach.enters_of_lt start)
    (Reach.leaves_of_lt inside)).bind (f := fun b =>
      discard (Parser.expect .rightParen expected) >>= fun _ => Pure.pure (a, b))
      (b := W.shift (a, b)) (k := true) fun t₁ beside₁ => by
    have closes : t₁.token.kind = .rightParen := by rw [beside₁.token inside, closing]
    unfold Follows
    rw [run_bind, closing_run closes]
    refine .inl ⟨t₁.advance, ?_, beside₁.advance_known inside more' (by rw [closing]; decide)⟩
    change some (Except.ok (a, W.shift b), t₁.advance) = some (.ok (W.shift a, W.shift b), t₁.advance)
    rw [inert a]
  unfold Follows
  rw [PhpAnalyser.enclosed, run_bind, run₀]
  exact rest

/-- What is read between parentheses, and what is read behind them. -/
theorem parens [m.Active] (opens : Opens o)
    (inner : ∀ a, Replays W true l n (p a) (p' a) s.advance)
    (next : ∀ a b s₁, Replays W true k' m (f a b) (f' a (W.shift b)) s₁) :
    Replays W k k' m
      (o >>= fun a => p a >>= fun b => discard (Parser.expect .rightParen expected) >>= fun _ => f a b)
      (o >>= fun a => p' a >>= fun b =>
        discard (Parser.expect .rightParen expected) >>= fun _ => f' a b) s := by
  let : Renumber α := .inert α
  have split (p : α → Parser β) (f : α → β → Parser γ) :
      (o >>= fun a => p a >>= fun b => discard (Parser.expect .rightParen expected) >>= fun _ => f a b) =
        PhpAnalyser.enclosed expected o p >>= fun read => f read.1 read.2 := by
    simp only [PhpAnalyser.enclosed, bind_assoc, pure_bind]
  rw [split, split]
  exact .bind (.enclosed opens (fun _ => rfl) inner) fun read s₁ _ => next read.1 read.2 s₁

theorem between {q q' : Parser β} (inner : Replays W true l n q q' s.advance) :
    Replays W k true .closing (between q) (PhpAnalyser.between q') s := by
  have split (q : Parser β) : PhpAnalyser.between q =
      PhpAnalyser.enclosed "')'" (discard (Parser.expect .leftParen "'('")) (fun _ => q) >>=
        fun read => Pure.pure read.2 := by
    simp only [PhpAnalyser.between, PhpAnalyser.enclosed, bind_assoc, pure_bind]
  rw [split, split]
  exact .then_ (.enclosed opens_expect.discard (fun _ => rfl) fun _ => inner) fun _ _ _ => .pure rfl

end Parens

/-- What is read without a look at the tokens. -/
theorem calm_ends [calm : m.Calm] {s' : ParserState} (same : s'.place = s.place) :
    m.Ends s s' := by
  cases m with
  | inner => trivial
  | closing => exact absurd rfl calm.not_closing
  | resting => exact .inl same

theorem push_run (kind : NodeKind) (span : Span) (ids : List Nat) (s : ParserState) :
    Parser.push kind span ids s =
      if (ids.all (· < s.nodes.size)) = true then
        some (.ok s.nodes.size, { s with nodes := adopt s.nodes kind span ids }) else none := by
  change (if (ids.all (· < s.nodes.size)) = true then _ else _ : Parser Nat) s = _
  split <;> rfl

section Nodes

variable {kind : NodeKind} {span start : Span} {ids ids' : List Nat}

/-- A node of a new type has members. -/
theorem make [m.Calm] (same : ids' = W.shift ids)
    (type : kind.isTypeDeclaration = true → s.errors = [] →
      ∃ start opening closing, Membered s.tokens (adopt s.nodes kind span ids)
        ⟨kind, span, none, ids, none, []⟩ start opening closing) :
    Replays W k k m (Parser.push kind span ids) (Parser.push kind span ids') s := by
  intro i s' run clean
  rw [push_run] at run
  split at run
  case isFalse => cases run
  case isTrue made =>
    cases run
    refine ⟨.make clean fun is => type is clean, calm_ends rfl, fun t beside _ _ => .inl ?_⟩
    have shifted : ids' = ids.map (· + W.front.size) := same.trans (Renumber.shifts_eq _ _)
    have made' : (ids'.all (· < t.nodes.size)) = true := by
      rw [shifted, beside.nodes, size_behind, List.all_map]
      simpa using made
    refine ⟨{ t with nodes := adopt t.nodes kind span ids' }, ?_, ?_⟩
    · rw [push_run, if_pos made', beside.nodes, size_behind]
      rfl
    · exact { beside with nodes := by rw [shifted, beside.nodes, behind_adopt] }

theorem push [m.Calm] (same : ids' = W.shift ids) (other : kind.isTypeDeclaration = false) :
    Replays W k k m (Parser.push kind span ids) (Parser.push kind span ids') s :=
  .make same fun type => by rw [other] at type; cases type

theorem spanFrom [m.Calm] :
    Replays W true true m (Parser.spanFrom start) (Parser.spanFrom start) s := by
  intro span s' run clean
  cases run
  refine ⟨.refl clean, calm_ends rfl, fun t beside _ _ => .inl ⟨t, ?_, beside⟩⟩
  change some (Except.ok (start.merge t.last), t) = some (.ok (start.merge s.last), t)
  rw [beside.last rfl]

/-- Makes a node in a text where the last token is known. -/
theorem finish [calm : m.Calm] (same : ids' = W.shift ids) (other : kind.isTypeDeclaration = false) :
    Replays W true true m (Parser.finish kind start ids) (Parser.finish kind start ids') s := by
  cases m with
  | inner => exact .bind (n := .inner) .spanFrom fun _ _ _ => .push same other
  | closing => exact absurd rfl calm.not_closing
  | resting => exact .then_ .spanFrom fun _ _ _ => .push same other

theorem node_at_run (i : Nat) (s : ParserState) :
    Parser.nodeAt i s = (s.nodes[i]?).map fun n => (.ok n, s) := by
  have here : (get : Parser ParserState) s = some (.ok s, s) := rfl
  rw [Parser.nodeAt, run_bind, here]
  dsimp only
  cases s.nodes[i]? <;> rfl

/-- A look at a node shows the same kind, span and children, but for their numbers. -/
theorem nodeAt [Renumber α] {f f' : Node → Parser α} {i : Nat}
    (next : ∀ n, s.nodes[i]? = some n → Replays W k k' m (f n) (f' (n.shift W.front.size)) s) :
    Replays W k k' m (Parser.nodeAt i >>= f) (Parser.nodeAt (W.shift i) >>= f') s := by
  intro a s' run clean
  obtain ⟨n, s₁, read, run⟩ := ok_of_bind run
  rw [node_at_run] at read
  obtain ⟨n', found, same⟩ := Option.map_eq_some_iff.mp read
  cases same
  obtain ⟨passage, ends, follows⟩ := next n found a s' run clean
  refine ⟨passage, ends, fun t beside enters leaves => ?_⟩
  have read' : Parser.nodeAt (W.shift i) t = some (.ok (n.shift W.front.size), t) := by
    change Parser.nodeAt (i + W.front.size) t = _
    rw [node_at_run, beside.nodes, behind_found, found]
    rfl
  unfold Follows
  rw [run_bind, read']
  exact follows t beside enters leaves

theorem kindOf [Renumber α] {f f' : NodeKind → Parser α} {i : Nat}
    (next : ∀ kind, Replays W k k' m (f kind) (f' kind) s) :
    Replays W k k' m (Parser.kindOf i >>= f) (Parser.kindOf (W.shift i) >>= f') s := by
  simp only [Parser.kindOf, bind_assoc, pure_bind]
  exact .nodeAt fun n _ => next n.kind

/-- Makes a node from the start of `base` in a text where the last token is known. -/
theorem wrap {base : Nat} {rest rest' : List Nat} (same : rest' = W.shift rest)
    (other : kind.isTypeDeclaration = false) :
    Replays W true true .inner (Parser.wrap kind base rest)
      (Parser.wrap kind (W.shift base) rest') s := by
  refine .bind (n := .resting) (.nodeAt fun n _ => .spanFrom) fun span _ _ => .push ?_ other
  rw [same]
  rfl

end Nodes

theorem set_doc_comment_run (i : Nat) (doc : Option String) (s : ParserState) :
    Parser.setDocComment i doc s =
      if i < s.nodes.size then some (.ok (), { s with nodes := annotate s.nodes i doc })
      else none := by
  change (if i < s.nodes.size then _ else _ : Parser Unit) s = _
  split <;> rfl

theorem setDocComment [m.Calm] {i : Nat} {doc : Option String} :
    Replays W k k m (Parser.setDocComment i doc) (Parser.setDocComment (W.shift i) doc) s := by
  intro u s' run clean
  rw [set_doc_comment_run] at run
  split at run
  case isFalse => cases run
  case isTrue made =>
    cases run
    refine ⟨.annotated clean, calm_ends rfl, fun t beside _ _ => .inl ?_⟩
    have made' : i + W.front.size < t.nodes.size := by
      rw [beside.nodes, size_behind]
      omega
    refine ⟨{ t with nodes := annotate t.nodes (i + W.front.size) doc }, ?_, ?_⟩
    · change Parser.setDocComment (i + W.front.size) doc t = _
      rw [set_doc_comment_run, if_pos made']
    · exact { beside with nodes := by rw [beside.nodes, behind_annotate] }

/-- The end of a statement seals it. -/
theorem finishStatement {start : Span} :
    Replays W true true .closing (Parser.finishStatement start) (Parser.finishStatement start) s := by
  refine .current <| .ite (fun semicolon => ?_) fun _ => .ite (fun tag => ?_) fun _ => .unexpected
  · exact .then_ (.skip_seal (.of_kind semicolon rfl) (by rw [semicolon]; rfl)) fun _ _ _ =>
      .spanFrom
  · refine .bind (n := .resting) .spanFrom fun span s₁ run => ?_
    cases run
    exact .then_ (.skip_tag tag) fun _ _ _ => .pure rfl

theorem pushStatement {kind : NodeKind} {start : Span} {ids ids' : List Nat}
    (same : ids' = W.shift ids) (other : kind.isTypeDeclaration = false) :
    Replays W true true .closing (Parser.pushStatement kind start ids)
      (Parser.pushStatement kind start ids') s :=
  .then_ .finishStatement fun _ _ _ => .push same other

theorem restoring_run (restore : ParserState → ParserState) (p : Parser α) (s : ParserState) :
    Parser.restoring restore p s = (p s).bind fun out => some (out.1, restore out.2) := rfl

theorem with_scope_run (scope : Option TypeScope) (p : Parser α) (s : ParserState) :
    Parser.withScope scope p s =
      (p { s with scope }).bind fun out => some (out.1, { out.2 with scope := s.scope }) := rfl

section Control

variable [Renumber α] [Renumber β] {p q : Parser α}

/-- A nested reader. The other one is nested at most as deeply. -/
theorem nested (replays : Replays W k k' m p q s.deeper) :
    Replays W k k' m (Parser.nested p) (Parser.nested q) s := by
  intro a s' run clean
  rw [nested_run] at run
  split at run
  case isTrue => cases run
  case isFalse low =>
    rw [restoring_run] at run
    obtain ⟨⟨result, s₁⟩, read, same⟩ := Option.bind_eq_some_iff.mp run
    cases same
    obtain ⟨passage, ends, follows⟩ := replays a s₁ read clean
    refine ⟨passage.around rfl rfl rfl rfl rfl ?_, ?_, fun t beside enters leaves => ?_⟩
    · have depth : s₁.depth = s.depth + 1 := passage.depth
      have scope : s₁.scope = s.scope := passage.scope
      rw [ParserState.shallower, depth, Nat.add_sub_cancel, ← scope]
    · exact ends.of_same rfl rfl
    have low' : ¬t.deeper.depth > Parser.maxNesting := fun deep =>
      low (Nat.lt_of_lt_of_le deep (Nat.succ_le_succ beside.depth_le))
    have inside := follows t.deeper
      { beside with depth_le := Nat.succ_le_succ beside.depth_le } enters leaves
    unfold Follows
    rw [nested_run, if_neg low', restoring_run]
    rcases inside with ⟨t₁, run', beside'⟩ | ⟨stuck, short⟩
    · rw [run']
      exact .inl ⟨_, rfl, { beside' with depth_le := Nat.sub_le_sub_right beside'.depth_le 1 }⟩
    · rw [stuck]
      exact .inr ⟨rfl, short⟩

theorem withScope {scope : Option TypeScope} (replays : Replays W k k' m p q { s with scope }) :
    Replays W k k' m (Parser.withScope scope p) (Parser.withScope scope q) s := by
  intro a s' run clean
  rw [with_scope_run] at run
  obtain ⟨⟨result, s₁⟩, read, same⟩ := Option.bind_eq_some_iff.mp run
  cases same
  obtain ⟨passage, ends, follows⟩ := replays a s₁ read clean
  refine ⟨passage.around rfl rfl rfl rfl rfl ?_, ?_, fun t beside enters leaves => ?_⟩
  · have depth : s₁.depth = s.depth := passage.depth
    dsimp only
    rw [← depth]
  · exact ends.of_same rfl rfl
  have inside := follows { t with scope } { beside with scope := rfl } enters leaves
  unfold Follows
  rw [with_scope_run]
  rcases inside with ⟨t₁, run', beside'⟩ | ⟨stuck, short⟩
  · rw [run']
    exact .inl ⟨_, rfl, { beside' with scope := beside.scope }⟩
  · rw [stuck]
    exact .inr ⟨rfl, short⟩

theorem onlyIf [calm : m.Calm] {wanted : Bool} (replays : wanted = true → Replays W k k m p q s) :
    Replays W k k m (Parser.onlyIf wanted p) (Parser.onlyIf wanted q) s := by
  have one (a : α) (s : ParserState) : Replays W k k m (Pure.pure [a]) (Pure.pure [W.shift a]) s :=
    .pure (Renumber.shift_singleton _ a).symm
  refine .ite (fun is => ?_) fun _ => .pure (Renumber.shift_nil _).symm
  cases m with
  | inner => exact .bind (replays is) fun a s₁ _ => one a s₁
  | closing => exact absurd rfl calm.not_closing
  | resting => exact .then_ (replays is) fun a s₁ _ => one a s₁

theorem remaining {f f' : Nat → Parser α}
    (next : ∀ n n', (W.Roomy → n ≤ n') → Replays W k k' m (f n) (f' n') s) :
    Replays W k k' m (Parser.remaining >>= f) (Parser.remaining >>= f') s := by
  intro a s' run clean
  have run : f s.stream.remaining s = some (.ok a, s') := run
  obtain ⟨passage, ends, -⟩ := next _ s.stream.remaining (fun _ => Nat.le_refl _) a s' run clean
  refine ⟨passage, ends, fun t beside enters leaves => ?_⟩
  exact (next _ _ beside.remaining_le a s' run clean).2.2 t beside enters leaves

section Loops

variable {step step' : β → Parser (ForInStep β)}

theorem iterate [calm : m.Calm]
    (each : ∀ b s, Replays W k k m (step b) (step' (W.shift b)) s) {fuel fuel' : Nat}
    (enough : W.Roomy → fuel ≤ fuel') (b : β) (s : ParserState) :
    Replays W k k m (Parser.iterate step fuel b) (Parser.iterate step' fuel' (W.shift b)) s := by
  induction fuel generalizing fuel' b s with
  | zero => exact .stuck
  | succ fuel ih =>
    have going {fuel' : Nat} (enough : W.Roomy → fuel ≤ fuel') : Replays W k k m
        (Parser.iterate step (fuel + 1) b) (Parser.iterate step' (fuel' + 1) (W.shift b)) s := by
      unfold Parser.iterate
      cases m with
      | inner =>
        refine .bind (each b s) fun r s₁ _ => ?_
        cases r with
        | done b => exact .pure rfl
        | yield b => exact ih enough b s₁
      | closing => exact absurd rfl calm.not_closing
      | resting =>
        refine .then_ (each b s) fun r s₁ _ => ?_
        cases r with
        | done b => exact .pure rfl
        | yield b => exact ih enough b s₁
    cases fuel' with
    | zero =>
      refine (going fun _ => Nat.le_refl _).stuck_beside fun roomy => ?_
      exact absurd (enough roomy) (Nat.not_succ_le_zero fuel)
    | succ fuel' => exact going fun roomy => Nat.le_of_succ_le_succ (enough roomy)

/-- A loop goes on in the other text as often, unless its text is too short for that. -/
theorem repeatFrom [m.Calm] {b b' : β}
    (same : b' = W.shift b) (each : ∀ b s, Replays W k k m (step b) (step' (W.shift b)) s) :
    Replays W k k m (Parser.repeatFrom b step) (Parser.repeatFrom b' step') s := by
  subst same
  exact .remaining fun n n' enough => .iterate each (fun roomy => Nat.succ_le_succ (enough roomy)) b s

end Loops

section Lists

variable {item item' : Parser α}

theorem commaSeparated (each : ∀ s, Replays W true true .inner item item' s) :
    Replays W true true .inner (Parser.commaSeparated item) (Parser.commaSeparated item') s := by
  refine .repeatFrom (Renumber.shift_nil _).symm fun items s => ?_
  refine .bind (each s) fun a s _ => .bind (.eat rfl) fun more s _ => .ite (fun _ => ?_) fun _ => ?_
  · exact .pure (congrArg ForInStep.yield (Renumber.shift_snoc _ items a))
  · exact .pure (congrArg ForInStep.done (Renumber.shift_snoc _ items a))

theorem commaList {close : TokenKind} (each : ∀ s, Replays W true true .inner item item' s) :
    Replays W true true .inner (Parser.commaList close item) (Parser.commaList close item') s := by
  refine .repeatFrom (Renumber.shift_nil _).symm fun items s => ?_
  refine .check <| .ite (fun _ => .pure rfl) fun _ => ?_
  refine .bind (each s) fun a s _ => .bind (.eat rfl) fun more s _ => .ite (fun _ => ?_) fun _ => ?_
  · exact .pure (congrArg ForInStep.yield (Renumber.shift_snoc _ items a))
  · exact .pure (congrArg ForInStep.done (Renumber.shift_snoc _ items a))

end Lists

end Control

/-- Reading that goes on behind an error has noted it. -/
theorem resume_noted {e : ParseError} {depth : Nat} {items : List Nat}
    {r : ForInStep (List Nat)} {s' : ParserState} (run : resume depth items e s = some (.ok r, s')) :
    s'.errors ≠ [] := by
  obtain ⟨u, s₁, read, run⟩ := ok_of_bind run
  cases run
  unfold Parser.recover at read
  split at read
  · have noted : Parser.synchronize { s with errors := s.errors ++ [e], depth } =
        some (.ok u, s') := read
    rw [synchronize_keeps _ _ _ noted]
    exact List.append_ne_nil_of_right_ne_nil _ (List.cons_ne_nil _ _)
  · cases read

section Items

variable {item item' : Parser (List Nat)} {stop : Token → Bool} {n : Reach}

/-- Without an error each step takes an item, or there is none left. -/
theorem listStep (each : Replays W k k n item item' s) (items : List Nat) :
    Replays W k k .inner (listStep stop item items) (listStep stop item' (W.shift items)) s := by
  intro r s' run clean
  by_cases ends : s.token.kind = .eof ∨ stop s.token = true
  · rw [list_step_ends ends] at run
    cases run
    refine ⟨.refl clean, trivial, fun t beside enters _ => .inl ⟨t, ?_, beside⟩⟩
    rw [← beside.token enters] at ends
    exact list_step_ends ends
  obtain ⟨more, goes⟩ := not_or.mp ends
  have goes : stop s.token = false := by simpa using goes
  rw [list_step_run more goes] at run
  rcases read : item s with - | ⟨e | ids, s₁⟩ <;> rw [read] at run
  · cases run
  · exact absurd clean (resume_noted run)
  · cases run
    obtain ⟨passage, -, follows⟩ := each.inner ids s' read clean
    refine ⟨passage, trivial, fun t beside enters leaves => ?_⟩
    have token := beside.token enters
    exact (follows t beside enters leaves).listStep (by rwa [token]) (by rwa [token])

theorem recovering (each : ∀ s, Replays W k k n item item' s) :
    Replays W k k .inner (Parser.recovering stop item) (Parser.recovering stop item') s := by
  rw [recovering_eq, recovering_eq]
  exact .repeatFrom rfl fun items s => .listStep (each s) items

end Items

end Replays

end PhpAnalyser
