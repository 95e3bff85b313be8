import PhpAnalyser.Proofs.Replay.Members
/-!
Statements, read again in another text: one lemma a production. A statement seals what was read, so
the other text may go on behind it in another way, unless it goes on with this statement.
-/
namespace PhpAnalyser

variable {γ : Type}

/-- What tells the loops apart: the word that closes the alternative form, and the node that is made
of what stands in parentheses and of the body. -/
structure Loop (γ : Type) where
  word : Keyword
  expected : String
  kind : γ → NodeKind
  children : γ → List Nat

def Loop.rest (loop : Loop γ) (g : Nested) (start : Span) (read : γ) : Parser Nat := do
  let alternate ← Parser.check .colon
  let inner ← Parser.body g alternate [loop.word]
  Parser.close alternate loop.word loop.expected (loop.kind read) start (loop.children read ++ [inner])

def Loop.statement (loop : Loop γ) (g : Nested) (head : Parser γ) : Parser Nat := do
  let start ← Parser.advance
  let read ← between head
  loop.rest g start.span read

def Loop.while_ : Loop Nat := ⟨.endWhile_, "'endwhile'", fun _ => .while_, fun test => [test]⟩

def Loop.for_ : Loop (List Nat) := ⟨.endFor_, "'endfor'", fun _ => .for_, id⟩

def Loop.foreach : Loop (Bool × List Nat) :=
  ⟨.endForeach_, "'endforeach'", fun read => .foreach read.1, Prod.snd⟩

namespace Parser

variable (g : Nested)

theorem while_statement_eq : whileStatement g = Loop.while_.statement g (expression g) := rfl

def forClauses : Parser (List Nat) := do
  let first ← forClause g .forInit .semicolon "';'"
  let test ← forClause g .forCondition .semicolon "';'"
  let token ← current
  let update ← onlyIf (!(← check .rightParen)) do finish .forUpdate token.span (← expressions g)
  return (first ++ test ++ update)

theorem for_statement_eq : forStatement g = Loop.for_.statement g (forClauses g) := by
  simp only [forStatement, forClause, Loop.for_, forClauses, Loop.statement, Loop.rest, between,
    bind_assoc, pure_bind, id]

def foreachHead : Parser (Bool × List Nat) := do
  let subject ← expression g
  discard <| expect (.keyword .as_) "'as'"
  let (byRef, targets) ← foreachTargets g
  return (byRef, subject :: targets)

theorem foreach_statement_eq : foreachStatement g = Loop.foreach.statement g (foreachHead g) := by
  simp only [foreachStatement, foreachHead, Loop.foreach, Loop.statement, Loop.rest, between,
    bind_assoc, pure_bind]

end Parser

def switchEnd (alternate : Bool) : TokenKind := if alternate then .keyword .endSwitch_ else .rightBrace

def labelStep (g : Nested) (closing : TokenKind) (labels : List Nat) :
    Parser (ForInStep (List Nat)) := do
  if ← Parser.check closing then return .done labels
  return .yield (labels ++ [← Parser.switchLabel g])

def switchBody (g : Nested) (closing : TokenKind) : Parser (List Nat) := do
  discard <| Parser.eat .semicolon
  Parser.repeatFrom [] (labelStep g closing)

def switchRest (g : Nested) (start : Span) (subject : Nat) : Parser Nat := do
  let alternate ← Parser.switchOpening
  let labels ← switchBody g (switchEnd alternate)
  Parser.skip
  if alternate then Parser.pushStatement .switch start (subject :: labels)
  else Parser.finish .switch start (subject :: labels)

theorem switch_statement_eq (g : Nested) : Parser.switchStatement g = (do
    let start ← Parser.advance
    let subject ← between (Parser.expression g)
    switchRest g start.span subject) := by
  simp only [switchRest, switchBody, bind_assoc]
  rfl

namespace Replays

variable {W : Overlap} {k : Bool} {s : ParserState} {g g' : Nested} (tracks : Tracks W g g')
include tracks

omit tracks in
/-- Where the last token is known, so is an empty scope behind it. -/
theorem emptyScope {f f' : ParserState → Parser Nat} (own : f s = Parser.push .scope s.last [])
    (whole : ∀ t, f' t = Parser.push .scope t.last []) :
    Replays W true true .resting (MonadState.get >>= f) (MonadState.get >>= f') s := by
  have made : Replays W true true .resting (Parser.push .scope s.last [])
      (Parser.push .scope s.last []) s := .push rfl rfl
  refine made.of_eq (congrFun own s) fun t beside _ => ?_
  change f' t t = _
  rw [whole, beside.last rfl]

theorem body_single (closing : List Keyword) :
    Replays W true true .closing (Parser.body g false closing) (Parser.body g' false closing) s := by
  refine .then_ (tracks.statement true s) fun id s₁ _ => ?_
  cases id with
  | some i => exact .pure rfl
  | none => exact emptyScope rfl fun _ => rfl

theorem body_listed (closing : List Keyword) :
    Replays W true true .inner (Parser.body g true closing) (Parser.body g' true closing) s :=
  .bind (.expect rfl) fun _ _ _ => .bind (statements tracks _) fun _ _ _ => .finish rfl rfl

omit tracks in
theorem close_single {word : Keyword} {expected : String} {kind : NodeKind} {start : Span}
    {ids ids' : List Nat} (same : ids' = W.shift ids) (other : kind.isTypeDeclaration = false) :
    Replays W true true .resting (Parser.close false word expected kind start ids)
      (Parser.close false word expected kind start ids') s :=
  .finish same other

omit tracks in
theorem close_listed {word : Keyword} {expected : String} {kind : NodeKind} {start : Span}
    {ids ids' : List Nat} (same : ids' = W.shift ids) (other : kind.isTypeDeclaration = false) :
    Replays W true true .closing (Parser.close true word expected kind start ids)
      (Parser.close true word expected kind start ids') s :=
  .bind (.discarded (.expect rfl)) fun _ _ _ => .pushStatement same other

theorem elseIfBranch_single (leads : s.Leads) :
    Replays W k true .closing (Parser.elseIfBranch g false) (Parser.elseIfBranch g' false) s :=
  .advancing leads <| .bind (condition tracks) fun _ _ _ => .then_ (body_single tracks _)
    fun _ _ _ => .finish rfl rfl

theorem elseIfBranch_listed (leads : s.Leads) :
    Replays W k true .inner (Parser.elseIfBranch g true) (Parser.elseIfBranch g' true) s :=
  .advancing leads <| .bind (condition tracks) fun _ _ _ => .bind (body_listed tracks _)
    fun _ _ _ => .finish rfl rfl

theorem elseBranch_single (leads : s.Leads) :
    Replays W k true .closing (Parser.elseBranch g false) (Parser.elseBranch g' false) s :=
  .advancing leads <| .then_ (body_single tracks _) fun _ _ _ => .finish rfl rfl

theorem elseBranch_listed (leads : s.Leads) :
    Replays W k true .inner (Parser.elseBranch g true) (Parser.elseBranch g' true) s :=
  .advancing leads <| .bind (body_listed tracks _) fun _ _ _ => .finish rfl rfl

theorem ifStatement (leads : s.Leads) :
    Replays W k true .closing (Parser.ifStatement g) (Parser.ifStatement g') s := by
  refine .advancing leads <| .bind (condition tracks) fun test s _ => .check ?_
  have children (first : Nat) (others last : List Nat) :
      W.shift test :: W.shift first :: W.shift others ++ W.shift last =
        W.shift (test :: first :: others ++ last) := by
    simp [Renumber.shift_list]
  cases decide (s.token.kind = .colon) with
  | false =>
    refine .then_ (body_single tracks _) fun first _ _ => .then_ (.repeatFrom (m := .resting) rfl
      fun others s => .check_bare rfl <| .ite (fun is => ?_) fun _ => .pure rfl) fun others s _ =>
        .check_bare rfl <| .then_ (.onlyIf fun is => ?_) fun last _ _ =>
          close_single (children first others last) rfl
    · have word := of_decide_eq_true is
      exact .resting (.then_ (elseIfBranch_single tracks (.of_word word)) fun branch _ _ =>
        .pure (congrArg ForInStep.yield (Renumber.shift_snoc _ others branch))) (by rw [word]; rfl)
    · have word := of_decide_eq_true is
      exact .resting (elseBranch_single tracks (.of_word word)) (by rw [word]; rfl)
  | true =>
    refine .bind (body_listed tracks _) fun first _ _ => .bind (.repeatFrom (m := .inner) rfl
      fun others s => .check <| .ite (fun is => ?_) fun _ => .pure rfl) fun others s _ =>
        .check <| .bind (n := .inner) (.onlyIf fun is => ?_) fun last _ _ =>
          close_listed (children first others last) rfl
    · exact .bind (elseIfBranch_listed tracks (.of_word (of_decide_eq_true is))) fun branch _ _ =>
        .pure (congrArg ForInStep.yield (Renumber.shift_snoc _ others branch))
    · exact elseBranch_listed tracks (.of_word (of_decide_eq_true is))

theorem doWhileStatement (leads : s.Leads) :
    Replays W k true .closing (Parser.doWhileStatement g) (Parser.doWhileStatement g') s :=
  .advancing leads <| .bind (body_single tracks _) fun _ _ _ => .bind (.discarded (.expect rfl))
    fun _ _ _ => .bind (condition tracks) fun _ _ _ => .pushStatement rfl rfl

section Loop

variable [Renumber γ] {form : Loop γ} (same : ∀ read, form.kind (W.shift read) = form.kind read)
  (shifted : ∀ read, form.children (W.shift read) = W.shift (form.children read))
  (other : ∀ read, (form.kind read).isTypeDeclaration = false)
include same shifted other

theorem loopRest {start : Span} {read : γ} : Replays W true true .closing (form.rest g start read)
    (form.rest g' start (W.shift read)) s := by
  refine .check ?_
  have grown (i : Nat) : form.children (W.shift read) ++ [W.shift i] =
      W.shift (form.children read ++ [i]) := by
    rw [shifted, Renumber.shift_snoc]
  rw [same]
  cases decide (s.token.kind = .colon) with
  | false => exact .then_ (body_single tracks _) fun i _ _ => close_single (grown i) (other read)
  | true => exact .bind (body_listed tracks _) fun i _ _ => close_listed (grown i) (other read)

theorem loop {head head' : Parser γ} (leads : s.Leads)
    (each : ∀ s, Replays W true true .inner head head' s) :
    Replays W k true .closing (form.statement g head) (form.statement g' head') s :=
  .advancing leads <| .bind (.between (each _)) fun _ _ _ => loopRest tracks same shifted other

end Loop

theorem whileStatement (leads : s.Leads) :
    Replays W k true .closing (Parser.whileStatement g) (Parser.whileStatement g') s := by
  rw [Parser.while_statement_eq, Parser.while_statement_eq]
  exact loop tracks (fun _ => rfl) (fun _ => rfl) (fun _ => rfl) leads fun _ => expression tracks

theorem forClause (kind : NodeKind) (other : kind.isTypeDeclaration = false) :
    Replays W true true .inner (Parser.forClause g kind .semicolon "';'")
      (Parser.forClause g' kind .semicolon "';'") s :=
  .current <| .check <| .bind (n := .inner) (.onlyIf fun _ => .bind (expressions tracks)
    fun _ _ _ => .finish rfl other) fun _ _ _ =>
      .bind (.discarded (.expect rfl)) fun _ _ _ => .pure rfl

theorem forClauses : Replays W true true .inner (Parser.forClauses g) (Parser.forClauses g') s := by
  refine .bind (forClause tracks .forInit rfl) fun first _ _ =>
    .bind (forClause tracks .forCondition rfl) fun test _ _ => .current <| .check <|
      .bind (n := .inner) (.onlyIf fun _ => .bind (expressions tracks) fun _ _ _ => .finish rfl rfl)
        fun update _ _ => .pure ?_
  simp [Renumber.shift_list]

theorem forStatement (leads : s.Leads) :
    Replays W k true .closing (Parser.forStatement g) (Parser.forStatement g') s := by
  rw [Parser.for_statement_eq, Parser.for_statement_eq]
  exact loop tracks (fun _ => rfl) (fun _ => rfl) (fun _ => rfl) leads fun _ => forClauses tracks

theorem foreachTargets :
    Replays W true true .inner (Parser.foreachTargets g) (Parser.foreachTargets g') s :=
  .bind .eatOperator fun _ _ _ => .bind (expression tracks) fun _ _ _ => .bind (.eat rfl) fun _ _ _ =>
    .ite (fun _ => .bind .eatOperator fun _ _ _ => .bind (expression tracks) fun _ _ _ => .pure rfl)
      fun _ => .pure rfl

theorem foreachHead : Replays W true true .inner (Parser.foreachHead g) (Parser.foreachHead g') s := by
  refine .bind (expression tracks) fun subject _ _ => .bind (.discarded (.expect rfl)) fun _ _ _ =>
    .bind (foreachTargets tracks) ?_
  rintro ⟨byRef, targets⟩ s -
  exact .pure rfl

theorem foreachStatement (leads : s.Leads) :
    Replays W k true .closing (Parser.foreachStatement g) (Parser.foreachStatement g') s := by
  rw [Parser.foreach_statement_eq, Parser.foreach_statement_eq]
  exact loop tracks (fun _ => rfl) (fun _ => rfl) (fun _ => rfl) leads fun _ => foreachHead tracks

theorem labelTest : Replays W k true .inner (Parser.labelTest g) (Parser.labelTest g') s :=
  .current <| .ite
    (fun is => .skipping (.of_word is) <| .bind (expression tracks) fun _ _ _ => .pure rfl)
    fun _ => .ite (fun is => .skipping (.of_word is) (.pure rfl)) fun _ => .unexpected

omit tracks in
theorem labelMark : Replays W true true .closing Parser.labelMark Parser.labelMark s := by
  refine .current <| .ite (fun is => ?_) fun _ => .unexpected
  simp only [Bool.or_eq_true, decide_eq_true_eq] at is
  rcases is with is | is <;> exact .skip_seal (.of_kind is rfl) (by rw [is]; rfl)

theorem switchLabel : Replays W true true .inner (Parser.switchLabel g) (Parser.switchLabel g') s := by
  refine .current <| .bind (labelTest tracks) ?_
  rintro ⟨isDefault, test⟩ s -
  exact .bind labelMark fun _ _ _ => .bind (statements tracks _) fun inner _ _ =>
    .finish (Renumber.shift_append _ test inner).symm rfl

omit tracks in
theorem switchOpening : Replays W true true .inner Parser.switchOpening Parser.switchOpening s :=
  .bind (.eat rfl) fun _ _ _ => .ite (fun _ => .pure rfl) fun _ =>
    .bind (.discarded (.expect rfl)) fun _ _ _ => .pure rfl

theorem switchBody (closing : TokenKind) : Replays W true true .inner
    (PhpAnalyser.switchBody g closing) (PhpAnalyser.switchBody g' closing) s := by
  refine .bind (.discarded (.eat rfl)) fun _ _ _ => .repeatFrom rfl fun labels _ => ?_
  refine .check <| .ite (fun _ => .pure rfl) fun _ => .bind (switchLabel tracks) fun label _ _ =>
    .pure (congrArg ForInStep.yield (Renumber.shift_snoc _ labels label))

omit tracks in
theorem labels_end (g : Nested) (closing : TokenKind) :
    Succeeds (PhpAnalyser.switchBody g closing) s fun _ s' => s'.token.kind = closing := by
  refine .then_ fun _ _ => .repeatFrom (I := fun _ _ => True) trivial fun labels s _ => ?_
  exact .check <| .ite (fun is => .pure (of_decide_eq_true is)) fun _ => .then_ fun _ _ => .pure trivial

theorem switchRest {start : Span} {subject : Nat} : Replays W true true .closing
    (PhpAnalyser.switchRest g start subject) (PhpAnalyser.switchRest g' start (W.shift subject)) s := by
  refine .bind switchOpening fun alternate _ _ => .bind (switchBody tracks _) fun labels s run => ?_
  have closes := labels_end g (switchEnd alternate) labels s run
  cases alternate with
  | false =>
    exact .then_ (.skip_seal (.of_kind closes rfl) (by rw [closes]; rfl)) fun _ _ _ => .finish rfl rfl
  | true => exact .skipping (.of_word closes) (.pushStatement rfl rfl)

theorem switchStatement (leads : s.Leads) :
    Replays W k true .closing (Parser.switchStatement g) (Parser.switchStatement g') s := by
  rw [switch_statement_eq, switch_statement_eq]
  exact .advancing leads <| .bind (.between (expression tracks)) fun _ _ _ => switchRest tracks

omit tracks in
theorem caughtTypes : Replays W true true .inner Parser.caughtTypes Parser.caughtTypes s :=
  .repeatFrom rfl fun _ _ => .bind className fun _ _ _ => .bind .eatOperator fun _ _ _ =>
    .ite (fun _ => .pure rfl) fun _ => .pure rfl

omit tracks in
theorem caughtVariable : Replays W true true .inner Parser.caughtVariable Parser.caughtVariable s :=
  .current <| .ite (fun is => .skipping (.of_kind is rfl) (.pure rfl)) fun _ => .pure rfl

omit tracks in
/-- A clause with the text between its parentheses as one part. -/
theorem catch_clause_eq (g : Nested) : Parser.catchClause g = (do
    let start ← Parser.advance
    discard <| Parser.expect .leftParen "'('"
    let head ← (do
      let types ← Parser.caughtTypes
      let bound ← Parser.caughtVariable
      return (types, bound))
    discard <| Parser.expect .rightParen "')'"
    let inner ← Parser.block g
    Parser.finish (.catch_ head.1 head.2) start.span [inner]) := by
  simp only [Parser.catchClause, bind_assoc, pure_bind]

theorem catchClause (leads : s.Leads) :
    Replays W k true .closing (Parser.catchClause g) (Parser.catchClause g') s := by
  rw [catch_clause_eq, catch_clause_eq]
  exact .advancing leads <| .parens (n := .inner) (l := true) opens_expect.discard
    (fun _ => .bind caughtTypes fun _ _ _ => .bind caughtVariable fun _ _ _ => .pure rfl)
    fun _ head _ => .then_ (block tracks) fun _ _ _ => .finish rfl rfl

theorem finallyClause (leads : s.Leads) :
    Replays W k true .closing (Parser.finallyClause g) (Parser.finallyClause g') s :=
  .advancing leads <| .then_ (block tracks) fun _ _ _ => .finish rfl rfl

theorem tryStatement (leads : s.Leads) :
    Replays W k true .closing (Parser.tryStatement g) (Parser.tryStatement g') s := by
  refine .advancing leads <| .then_ (block tracks) fun inner _ _ => .then_ (.repeatFrom
    (m := .resting) rfl fun clauses s => .check_bare rfl <| .ite (fun is => ?_) fun _ => .pure rfl)
      fun clauses s _ => .check_bare rfl <| .then_ (.onlyIf fun is => ?_) fun last _ _ => ?_
  · have word := of_decide_eq_true is
    exact .resting (.then_ (catchClause tracks (.of_word word)) fun clause _ _ =>
      .pure (congrArg ForInStep.yield (Renumber.shift_snoc _ clauses clause))) (by rw [word]; rfl)
  · have word := of_decide_eq_true is
    exact .resting (finallyClause tracks (.of_word word)) (by rw [word]; rfl)
  · have same : (W.shift clauses ++ W.shift last).isEmpty = (clauses ++ last).isEmpty := by
      cases clauses <;> cases last <;> rfl
    rw [same]
    exact .ite (fun _ => .unexpected) fun _ => .finish (by simp [Renumber.shift_list]) rfl

theorem jump (kind : NodeKind) (leads : s.Leads) (other : kind.isTypeDeclaration = false) :
    Replays W k true .closing (Parser.jump g kind) (Parser.jump g' kind) s :=
  .advancing leads <| .current <| .bind (n := .inner) (.onlyIf fun _ => expression tracks)
    fun _ _ _ => .pushStatement rfl other

theorem listStatement (kind : NodeKind) (leads : s.Leads) (other : kind.isTypeDeclaration = false) :
    Replays W k true .closing (Parser.listStatement g kind) (Parser.listStatement g' kind) s :=
  .advancing leads <| .bind (expressions tracks) fun _ _ _ => .pushStatement rfl other

theorem throwStatement (leads : s.Leads) :
    Replays W k true .closing (Parser.throwStatement g) (Parser.throwStatement g') s :=
  .advancing leads <| .bind (expression tracks) fun _ _ _ => .pushStatement rfl rfl

theorem unsetStatement (leads : s.Leads) :
    Replays W k true .closing (Parser.unsetStatement g) (Parser.unsetStatement g') s :=
  .advancing leads <| .bind (callOperands tracks) fun _ _ _ => .pushStatement rfl rfl

theorem staticVariable :
    Replays W true true .inner (Parser.staticVariable g) (Parser.staticVariable g') s :=
  .bind (.expect rfl) fun _ _ _ => .bind (n := .inner) (l := true) (.push rfl rfl) fun _ _ _ =>
    .bind .eatOperator fun _ _ _ => .ite (fun _ => .bind (expression tracks) fun _ _ _ =>
      .nodeAt fun _ _ => .push rfl rfl) fun _ => .pure rfl

theorem staticVariables (leads : s.Leads) :
    Replays W k true .closing (Parser.staticVariables g) (Parser.staticVariables g') s :=
  .advancing leads <| .bind (.commaSeparated fun _ => staticVariable tracks) fun _ _ _ =>
    .pushStatement rfl rfl

theorem expressionStatement :
    Replays W k true .closing (Parser.expressionStatement g) (Parser.expressionStatement g') s :=
  .current <| .bind (expression tracks) fun _ _ _ => .pushStatement rfl rfl

omit tracks in
theorem names_function_run (s : ParserState) : Parser.namesFunction s = some (.ok
    (decide ((s.stream.peek 1).kind = .identifier) || ((s.stream.peek 1).isOperator "&" &&
      decide ((s.stream.peek 2).kind = .identifier))), s) := by
  unfold Parser.namesFunction
  rw [run_ahead]
  split
  next named => rw [decide_eq_true named]; rfl
  next other => rw [run_ahead, decide_eq_false other]; rfl

omit tracks in
/-- A token behind the next one is looked at only where there is no end in between. -/
theorem namesFunction (is : s.token.kind = .keyword .function_) :
    Replays W k k .inner Parser.namesFunction Parser.namesFunction s := by
  intro b s' run clean
  rw [names_function_run] at run
  cases run
  refine ⟨.refl clean, trivial, fun t beside enters _ => .inl ⟨t, ?_, beside⟩⟩
  have opened : s.token.kind.isSeal = false := by rw [is]; rfl
  rw [names_function_run, beside.peek enters opened]
  cases byRef : (s.stream.peek 1).isOperator "&" with
  | false => rfl
  | true =>
    simp only [Token.isOperator, Bool.and_eq_true, decide_eq_true_eq] at byRef
    rw [beside.peek_two enters opened (by rw [byRef.1]; rfl)]
    rfl

theorem keywordStatement (word : Keyword) (is : s.token.kind = .keyword word) :
    Replays W k true .closing (Parser.keywordStatement g word) (Parser.keywordStatement g' word) s := by
  have leads := ParserState.Leads.of_word is
  have opened : s.token.kind.isSeal = false := by rw [is]; rfl
  unfold Parser.keywordStatement
  split
  · exact ifStatement tracks leads
  · exact whileStatement tracks leads
  · exact doWhileStatement tracks leads
  · exact forStatement tracks leads
  · exact foreachStatement tracks leads
  · exact switchStatement tracks leads
  · exact jump tracks _ leads rfl
  · exact jump tracks _ leads rfl
  · exact jump tracks _ leads rfl
  · exact listStatement tracks _ leads rfl
  · exact tryStatement tracks leads
  · exact throwStatement tracks leads
  · exact listStatement tracks _ leads rfl
  · exact unsetStatement tracks leads
  · exact constantDeclaration tracks leads
  · exact .ahead (fun _ => .ite (fun _ => staticVariables tracks leads)
      fun _ => expressionStatement tracks) fun seals => by rw [opened] at seals; cases seals
  · refine .bind (namesFunction is) fun named s₁ run => ?_
    rw [names_function_run] at run
    cases run
    exact .ite (fun _ => functionDeclaration tracks is) fun _ => expressionStatement tracks
  · exact classDeclaration tracks
  · exact classDeclaration tracks
  · exact classDeclaration tracks
  · exact interfaceDeclaration tracks is
  · exact traitDeclaration tracks is
  · exact expressionStatement tracks

theorem statement : Replays W k k .closing (Parser.statement g) (Parser.statement g') s := by
  refine .current ?_
  split
  case h_1 kind =>
    exact .forget (.then_ (.skip_seal (.of_kind kind rfl) (by rw [kind]; rfl)) fun _ _ _ => .pure rfl)
  case h_2 kind => exact .then_ (.skip_tag kind) fun _ _ _ => .pure rfl
  case h_3 => exact .forget (.map (block tracks) fun _ => rfl)
  case h_4 word kind => exact .forget (.map (keywordStatement tracks word kind) fun _ => rfl)
  case h_5 => exact .forget (.map (expressionStatement tracks) fun _ => rfl)

end Replays

end PhpAnalyser
