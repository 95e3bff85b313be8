import PhpAnalyser.Proofs.Replay.Unit
/-!
The two forms of loops and switches, step by step: statements or labels in braces, and between a
colon and a closing word.
-/
namespace PhpAnalyser

variable {β : Type} {s s' : ParserState}

theorem restoring_ok {restore : ParserState → ParserState} {p : Parser β} {b : β}
    (run : Parser.restoring restore p s = some (.ok b, s')) :
    ∃ s₁, p s = some (.ok b, s₁) ∧ s' = restore s₁ := by
  rw [Replays.restoring_run] at run
  obtain ⟨⟨result, s₁⟩, read, same⟩ := Option.bind_eq_some_iff.mp run
  cases same
  exact ⟨s₁, read, rfl⟩

theorem nested_ok {p : Parser β} {b : β} (run : Parser.nested p s = some (.ok b, s')) :
    ∃ s₁, p s.deeper = some (.ok b, s₁) ∧ s' = s₁.shallower := by
  rw [nested_run] at run
  split at run
  · cases run
  · exact restoring_ok run

theorem push_ok {kind : NodeKind} {span : Span} {ids : List Nat} {i : Nat}
    (run : Parser.push kind span ids s = some (.ok i, s')) :
    (∀ k ∈ ids, k < s.nodes.size) ∧ i = s.nodes.size ∧
      s' = { s with nodes := adopt s.nodes kind span ids } := by
  rw [Replays.push_run] at run
  split at run
  next made =>
    cases run
    exact ⟨by simpa using made, rfl, rfl⟩
  next => cases run

theorem finish_ok {kind : NodeKind} {start : Span} {ids : List Nat} {i : Nat}
    (run : Parser.finish kind start ids s = some (.ok i, s')) :
    (∀ k ∈ ids, k < s.nodes.size) ∧ i = s.nodes.size ∧
      ∃ span, s' = { s with nodes := adopt s.nodes kind span ids } := by
  have run : Parser.push kind (start.merge s.last) ids s = some (.ok i, s') := run
  obtain ⟨made, same, rest⟩ := push_ok run
  exact ⟨made, same, _, rest⟩

theorem push_statement_ok {kind : NodeKind} {start : Span} {ids : List Nat} {i : Nat}
    (run : Parser.pushStatement kind start ids s = some (.ok i, s')) :
    s.token.kind ≠ .eof ∧ (∀ k ∈ ids, k < s.nodes.size) ∧ i = s.nodes.size ∧
      ∃ span, s' = { s.advance with nodes := adopt s.nodes kind span ids } := by
  obtain ⟨span, s₁, finished, pushed⟩ := ok_of_bind run
  obtain ⟨mark, rfl, -⟩ := Succeeds.finish_statement span s₁ finished
  have more : s.token.kind ≠ .eof := by rcases mark with is | is <;> rw [is] <;> exact nofun
  obtain ⟨made, same, rfl⟩ := push_ok pushed
  rw [nodes_advance] at made same
  exact ⟨more, made, same, span, by rw [nodes_advance]⟩

/-- Statements in braces. -/
theorem block_ok {g : Nested} {i : Nat} (run : Parser.block g s = some (.ok i, s')) :
    ∃ ids s₁, Parser.statements g (fun t => decide (t.kind = .rightBrace)) s.advance = some (.ok ids, s₁) ∧
      s₁.token.kind = .rightBrace ∧ (∀ k ∈ ids, k < s₁.nodes.size) ∧ i = s₁.nodes.size ∧
      ∃ span, s' = { s₁.advance with nodes := adopt s₁.nodes .scope span ids } := by
  obtain ⟨start, s₀, first, run⟩ := ok_of_bind run
  obtain ⟨-, -, rfl⟩ := Succeeds.expect _ _ first
  obtain ⟨ids, s₁, read, run⟩ := ok_of_bind run
  obtain ⟨u, s₂, last, run⟩ := ok_of_bind run
  obtain ⟨closes, rfl⟩ := Succeeds.discard (Q := fun _ s₂ => s₁.token.kind = .rightBrace ∧ s₂ = s₁.advance)
    (Succeeds.expect.mono fun _ _ is => ⟨is.2.1, is.2.2⟩) u s₂ last
  obtain ⟨made, same, span, rest⟩ := finish_ok run
  rw [nodes_advance] at made same rest
  exact ⟨ids, s₁, read, closes, made, same, span, rest⟩

theorem map_ok {α : Type} {f : α → β} {p : Parser α} {b : β}
    (run : (f <$> p) s = some (.ok b, s')) : ∃ a, p s = some (.ok a, s') ∧ b = f a := by
  rw [← bind_pure_comp] at run
  obtain ⟨a, s₁, read, rest⟩ := ok_of_bind run
  cases rest
  exact ⟨a, read, rfl⟩

theorem map_run {α : Type} {f : α → β} {p : Parser α} {a : α} (run : p s = some (.ok a, s')) :
    (f <$> p) s = some (.ok (f a), s') := by
  rw [← bind_pure_comp, run_bind, run]
  rfl

theorem statement_brace {g : Nested} (brace : s.token.kind = .leftBrace) :
    Parser.statement g s = (some <$> Parser.block g) s := by
  unfold Parser.statement
  rw [run_current, brace]

theorem statement_word {g : Nested} {word : Keyword} (is : s.token.kind = .keyword word) :
    Parser.statement g s = (some <$> Parser.keywordStatement g word) s := by
  unfold Parser.statement
  rw [run_current, is]

variable {γ : Type} {loop : Loop γ} {head : Parser γ} {i n : Nat}

/-- The body of a control structure in braces is one level deeper. -/
theorem body_braces_ok {words : List Keyword} (brace : s.token.kind = .leftBrace)
    (run : Parser.body (Parser.nestedAt (n + 1)) false words s = some (.ok i, s')) :
    ∃ s₁, Parser.block (Parser.nestedAt n) s.deeper = some (.ok i, s₁) ∧ s' = s₁.shallower := by
  obtain ⟨r, s₁, read, rest⟩ := ok_of_bind (p := (Parser.nestedAt (n + 1)).statement) run
  obtain ⟨s₂, inner, rfl⟩ := nested_ok (p := Parser.statement (Parser.nestedAt n)) read
  rw [statement_brace (s := s.deeper) brace] at inner
  obtain ⟨k, block, rfl⟩ := map_ok inner
  cases rest
  exact ⟨s₂, block, rfl⟩

/-- What follows the parentheses of a loop with statements in braces. -/
theorem loop_braces_ok {start : Span} {read : γ} (brace : s.token.kind = .leftBrace)
    (run : loop.rest (Parser.nestedAt (n + 1)) start read s = some (.ok i, s')) :
    ∃ ids s₁, Parser.statements (Parser.nestedAt n) (fun t => decide (t.kind = .rightBrace))
        s.deeper.advance = some (.ok ids, s₁) ∧ s₁.token.kind = .rightBrace ∧
      (∀ k ∈ ids, k < s₁.nodes.size) ∧
      (∀ k ∈ loop.children read ++ [s₁.nodes.size], k < s₁.nodes.size + 1) ∧
      i = s₁.nodes.size + 1 ∧ s'.tokens = s₁.tokens ∧ s'.place = s₁.place + 1 ∧ s'.errors = s₁.errors ∧
      ∃ span span', s'.nodes = adopt (adopt s₁.nodes .scope span ids) (loop.kind read) span'
        (loop.children read ++ [s₁.nodes.size]) := by
  obtain ⟨alternate, s₀, check, run⟩ := ok_of_bind run
  cases check
  have other : decide (s.token.kind = .colon) = false := by rw [brace]; rfl
  rw [show s.stream.current.kind = s.token.kind from rfl, other] at run
  obtain ⟨k, s₃, body, close⟩ := ok_of_bind run
  obtain ⟨s₂, block, rfl⟩ := body_braces_ok brace body
  obtain ⟨ids, s₁, read', closes, made, rfl, span, rfl⟩ := block_ok block
  obtain ⟨made', rfl, span', rfl⟩ := finish_ok close
  have size : (adopt s₁.nodes .scope span ids).size = s₁.nodes.size + 1 := size_adopt
  refine ⟨ids, s₁, read', closes, made, ?_, size, tokens_advance, place_advance (by rw [closes]; decide),
    errors_advance, span, span', rfl⟩
  rw [← size]
  exact made'

theorem bind_run {α : Type} {p : Parser α} {f : α → Parser β} {a : α} {s₁ : ParserState}
    {outcome : Option (Except ParseError β × ParserState)} (first : p s = some (.ok a, s₁))
    (next : f a s₁ = outcome) : (p >>= f) s = outcome := by
  rw [run_bind, first]
  exact next

theorem expect_run {kind : TokenKind} {expected : String} (is : s.token.kind = kind) :
    Parser.expect kind expected s = some (.ok s.token, s.advance) := by
  change (if decide (s.token.kind = kind) = true then _ else _ : Parser Token) s = _
  rw [if_pos (decide_eq_true is)]
  rfl

abbrev ParserState.having (s : ParserState) (nodes : Array Node) : ParserState := { s with nodes }

theorem advance_having (nodes : Array Node) : (s.having nodes).advance = s.advance.having nodes := by
  unfold ParserState.advance
  cases s.stream.next? <;> rfl

theorem finish_run (kind : NodeKind) (start : Span) {ids : List Nat}
    (made : ∀ k ∈ ids, k < s.nodes.size) :
    ∃ span, Parser.finish kind start ids s =
      some (.ok s.nodes.size, s.having (adopt s.nodes kind span ids)) := by
  refine ⟨start.merge s.last, ?_⟩
  change Parser.push kind (start.merge s.last) ids s = _
  rw [Replays.push_run, if_pos (by simpa using made)]

theorem push_statement_run (kind : NodeKind) (start : Span) {ids : List Nat}
    (mark : s.token.kind = .semicolon) (made : ∀ k ∈ ids, k < s.nodes.size) :
    ∃ span, Parser.pushStatement kind start ids s =
      some (.ok s.nodes.size, s.advance.having (adopt s.nodes kind span ids)) := by
  have ends : Parser.finishStatement start s = some (.ok (start.merge s.advance.last), s.advance) := by
    unfold Parser.finishStatement
    rw [run_current, if_pos mark]
    rfl
  refine ⟨start.merge s.advance.last, bind_run ends ?_⟩
  rw [Replays.push_run, nodes_advance, if_pos (by simpa using made)]

/-- What follows the parentheses of a loop with statements between a colon and its closing word. -/
theorem loop_listed_run {g : Nested} (start : Span) (read : γ) {s₁ : ParserState} {ids : List Nat}
    (colon : s.token.kind = .colon)
    (body : Parser.statements g (fun t => t.kind.keyword?.any [loop.word].contains) s.advance =
      some (.ok ids, s₁))
    (word : s₁.token.kind = .keyword loop.word) (mark : s₁.advance.token.kind = .semicolon)
    (made : ∀ k ∈ ids, k < s₁.nodes.size)
    (made' : ∀ k ∈ loop.children read ++ [s₁.nodes.size], k < s₁.nodes.size + 1) :
    ∃ s', loop.rest g start read s = some (.ok (s₁.nodes.size + 1), s') ∧
      s'.stream = s₁.advance.advance.stream ∧ s'.errors = s₁.errors ∧
      ∃ span span', s'.nodes = adopt (adopt s₁.nodes .scope span ids) (loop.kind read) span'
        (loop.children read ++ [s₁.nodes.size]) := by
  obtain ⟨span, scope⟩ := finish_run .scope s.token.span made
  let s₂ := s₁.advance.having (adopt s₁.nodes .scope span ids)
  have size : s₂.nodes.size = s₁.nodes.size + 1 := size_adopt
  have inner : Parser.body g true [loop.word] s = some (.ok s₁.nodes.size,
      s₁.having (adopt s₁.nodes .scope span ids)) := bind_run (expect_run colon) (bind_run body scope)
  have closes : (discard (Parser.expect (.keyword loop.word) loop.expected) : Parser Unit)
      (s₁.having (adopt s₁.nodes .scope span ids)) = some (.ok (), s₂) := by
    refine map_run (a := s₁.token) ?_
    change _ = some (_, s₁.advance.having _)
    rw [← advance_having]
    exact expect_run word
  obtain ⟨span', last⟩ := push_statement_run (s := s₂) (loop.kind read) start mark (size ▸ made')
  rw [size] at last
  have check : Parser.check .colon s = some (.ok true, s) :=
    congrArg (fun b => some (Except.ok b, s)) (decide_eq_true colon)
  refine ⟨s₂.advance.having (adopt s₂.nodes (loop.kind read) span'
    (loop.children read ++ [s₁.nodes.size])), bind_run check (bind_run inner (bind_run closes last)),
    ?_, ?_, span, span', rfl⟩
  · change s₂.advance.stream = _
    rw [advance_having]
  · change s₂.advance.errors = _
    rw [errors_advance]
    exact errors_advance

theorem loop_listed_stuck {g : Nested} {start : Span} {read : γ} (colon : s.token.kind = .colon)
    (stuck : Parser.statements g (fun t => t.kind.keyword?.any [loop.word].contains) s.advance = none) :
    loop.rest g start read s = none := by
  have check : Parser.check .colon s = some (.ok true, s) :=
    congrArg (fun b => some (Except.ok b, s)) (decide_eq_true colon)
  have inner : Parser.body g true [loop.word] s = none := by
    change (Parser.expect .colon "':'" >>= _) s = none
    rw [bind_run (expect_run colon) rfl, run_bind, stuck]
  rw [Loop.rest, bind_run check rfl, run_bind, inner]

def switchStart (alternate : Bool) : TokenKind := if alternate then .colon else .leftBrace

theorem switch_opening_ok : Succeeds Parser.switchOpening s fun alternate s' =>
    s.token.kind = switchStart alternate ∧ s' = s.advance := by
  refine .eat (fun colon => .pure ⟨colon, rfl⟩) fun _ => ?_
  refine .bind (R := fun _ s' => s.token.kind = .leftBrace ∧ s' = s.advance)
    (.discard (.mono .expect fun _ _ is => ⟨is.2.1, is.2.2⟩)) ?_
  rintro _ _ ⟨brace, rfl⟩
  exact .pure ⟨brace, rfl⟩

theorem eat_run {kind : TokenKind} (is : s.token.kind = kind) :
    Parser.eat kind s = some (.ok true, s.advance) := by
  change (if decide (s.token.kind = kind) = true then _ else _ : Parser Bool) s = _
  rw [if_pos (decide_eq_true is)]
  rfl

theorem eat_other {kind : TokenKind} (other : s.token.kind ≠ kind) :
    Parser.eat kind s = some (.ok false, s) := by
  change (if decide (s.token.kind = kind) = true then _ else _ : Parser Bool) s = _
  rw [if_neg (by simpa using other)]
  rfl

theorem switch_opening_run {alternate : Bool} (is : s.token.kind = switchStart alternate) :
    Parser.switchOpening s = some (.ok alternate, s.advance) := by
  cases alternate with
  | true => exact bind_run (eat_run is) rfl
  | false =>
    refine bind_run (eat_other ?_) (bind_run (map_run (expect_run is)) rfl)
    rw [is]
    decide

def ParserState.behindEnd (alternate : Bool) (s : ParserState) : ParserState :=
  if alternate then s.advance.advance else s.advance

/-- What follows the parentheses of a switch in one of its forms. -/
theorem switch_ok {g : Nested} {start : Span} {subject : Nat}
    (run : switchRest g start subject s = some (.ok i, s')) :
    ∃ alternate labels s₁, s.token.kind = switchStart alternate ∧
      switchBody g (switchEnd alternate) s.advance = some (.ok labels, s₁) ∧
      s₁.token.kind = switchEnd alternate ∧ (∀ k ∈ subject :: labels, k < s₁.nodes.size) ∧
      i = s₁.nodes.size ∧ s'.tokens = s₁.tokens ∧
      s'.place = s₁.place + (if alternate then 2 else 1) ∧ s'.errors = s₁.errors ∧
      ∃ span, s'.nodes = adopt s₁.nodes .switch span (subject :: labels) := by
  obtain ⟨alternate, s₀, opening, run⟩ := ok_of_bind run
  obtain ⟨starts, rfl⟩ := switch_opening_ok alternate s₀ opening
  obtain ⟨labels, s₁, body, run⟩ := ok_of_bind run
  obtain ⟨u, s₂, skipped, run⟩ := ok_of_bind run
  cases skipped
  have closes := Replays.labels_end g _ labels s₁ body
  refine ⟨alternate, labels, s₁, starts, body, closes, ?_⟩
  cases alternate with
  | false =>
    obtain ⟨made, same, span, rfl⟩ := finish_ok run
    rw [nodes_advance] at made same
    exact ⟨made, same, tokens_advance, place_advance (by rw [closes]; decide), errors_advance, span,
      congrArg (adopt · _ _ _) nodes_advance⟩
  | true =>
    obtain ⟨more, made, same, span, rfl⟩ := push_statement_ok run
    rw [nodes_advance] at made same
    have place : s₁.advance.place = s₁.place + 1 := place_advance (by rw [closes]; decide)
    exact ⟨made, same, tokens_advance.trans tokens_advance,
      (place_advance more).trans (congrArg (· + 1) place), errors_advance.trans errors_advance, span,
      congrArg (adopt · _ _ _) nodes_advance⟩

theorem switch_run {g : Nested} (start : Span) {subject : Nat} {alternate : Bool} {labels : List Nat}
    {s₁ : ParserState} (starts : s.token.kind = switchStart alternate)
    (body : switchBody g (switchEnd alternate) s.advance = some (.ok labels, s₁))
    (mark : alternate = true → s₁.advance.token.kind = .semicolon)
    (made : ∀ k ∈ subject :: labels, k < s₁.nodes.size) :
    ∃ s', switchRest g start subject s = some (.ok s₁.nodes.size, s') ∧
      s'.stream = (s₁.behindEnd alternate).stream ∧ s'.errors = s₁.errors ∧
      ∃ span, s'.nodes = adopt s₁.nodes .switch span (subject :: labels) := by
  have nodes : s₁.advance.nodes = s₁.nodes := nodes_advance
  have runs {last : Parser Nat} {out : Option (Except ParseError Nat × ParserState)}
      (same : last = if alternate then Parser.pushStatement .switch start (subject :: labels)
        else Parser.finish .switch start (subject :: labels)) (ends : last s₁.advance = out) :
      switchRest g start subject s = out := by
    subst same
    have skip : Parser.skip s₁ = some (.ok (), s₁.advance) := rfl
    exact bind_run (switch_opening_run starts) <| bind_run body <| bind_run skip ends
  cases alternate with
  | false =>
    obtain ⟨span, ends⟩ := finish_run (s := s₁.advance) .switch start (nodes ▸ made)
    rw [nodes] at ends
    exact ⟨_, runs rfl ends, rfl, errors_advance, span, rfl⟩
  | true =>
    obtain ⟨span, ends⟩ := push_statement_run (s := s₁.advance) .switch start (mark rfl)
      (nodes ▸ made)
    rw [nodes] at ends
    exact ⟨_, runs rfl ends, rfl, errors_advance.trans errors_advance, span, rfl⟩

theorem switch_stuck {g : Nested} {start : Span} {subject : Nat} {alternate : Bool}
    (starts : s.token.kind = switchStart alternate)
    (stuck : switchBody g (switchEnd alternate) s.advance = none) :
    switchRest g start subject s = none := by
  rw [switchRest, bind_run (switch_opening_run starts) rfl, run_bind, stuck]

end PhpAnalyser
