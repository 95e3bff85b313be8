import PhpAnalyser.Proofs.Production.Declaration
/-!
The walk over the productions of statements.
-/
namespace PhpAnalyser

namespace Judgement

namespace Says

variable {J : Judgement} {scope : Option TypeScope} {front given : Prop} {n : Nat}

theorem close {kind : NodeKind} {k : Nat} {ids : List Nat} {a b : Span} {alternate : Bool}
    {word : Keyword} {expected : String} (common : kind.isCommon = true) (same : J.spans a b)
    (room : k < 6) (low : given → J.All scope k ids) (all : n = ids.length) :
    J.One scope front given n (k + 1) (Parser.close alternate word expected kind a ids)
      (Parser.close alternate word expected kind b ids) :=
  .ite .rfl (.then_ (past _ _) fun _ => pushStatement common same room low all)
    (finishCommon common same room low all)

theorem labelMark : J.Plain scope front given Parser.labelMark Parser.labelMark := by
  refine .current fun a b same _ _ => ?_
  rw [same.kind]
  exact .ite .rfl skip (unexpected _)

theorem switchOpening : J.Plain scope front given Parser.switchOpening Parser.switchOpening :=
  .then_ (eat _) fun _ => .ite .rfl done (.then_ (past _ _) fun _ => done)

theorem caughtTypes : J.Says scope front given 0 Parser.caughtTypes Parser.caughtTypes
    (.of (fun types => ∀ name ∈ types, J.facts.fine name) fun _ => 0) := by
  refine repeatFrom (I := fun types => ∀ name ∈ types, J.facts.fine name) (N := fun _ => 0)
    (by simp) fun types => .bind className fun name => .then_ (eatOperator _) fun _ => ?_
  have more (known : (given ∧ ∀ other ∈ types, J.facts.fine other) ∧ J.facts.fine name) :
      ∀ other ∈ types ++ [name], J.facts.fine other :=
    List.forall_mem_append.mpr ⟨known.1.2, List.forall_mem_singleton.mpr known.2⟩
  exact .ite .rfl (pure rfl more rfl) (pure rfl more rfl)

theorem caughtVariable :
    J.Plain scope front given Parser.caughtVariable Parser.caughtVariable := by
  refine .current fun a b same _ _ => ?_
  rw [same.kind, same.text]
  exact .ite .rfl (.then_ skip fun _ => done) done

theorem namesFunction {p q : Bool → Parser α} {v : Verdict J.exact α}
    (next : ∀ named, J.Says scope front given n (p named) (q named) v) :
    J.Says scope front given n (Parser.namesFunction >>= p) (Parser.namesFunction >>= q) v := by
  rw [Parser.namesFunction, bind_assoc, bind_assoc]
  refine .ahead 1 fun x y near => ?_
  rw [near.kind, near.is_operator]
  split
  · rw [pure_bind, pure_bind]
    exact next _
  · rw [bind_assoc, bind_assoc]
    refine .ahead 2 fun x y far => ?_
    rw [far.kind, pure_bind, pure_bind]
    exact next _

variable {g h : Nested} (inner : J.Inner g h)
include inner

theorem body (alternate : Bool) (closing : List Keyword) :
    J.One scope front given 0 1 (Parser.body g alternate closing)
      (Parser.body h alternate closing) := by
  refine .ite .rfl ?_ (.bind inner.statement fun id => ?_)
  · exact .behind_token (expect _ _) fun _ _ same =>
      .bind (statements inner fun _ _ here => by rw [here.kind]) fun _ =>
        finishCommon rfl (J.tokens_span same) (by decide) And.right (Nat.zero_add _)
  · cases id with
    | some i => exact pure rfl (fun known => (all_cons.mp known.2).1.mono (by decide)) rfl
    | none => exact J.says_look fun _ _ view _ _ =>
        pushCommon rfl view.last (by decide) (fun _ => all_nil) rfl

theorem elseIfBranch (alternate : Bool) : J.One scope front given 0 2
    (Parser.elseIfBranch g alternate) (Parser.elseIfBranch h alternate) :=
  .behind_token advance fun _ _ same => .bind (condition inner) fun _ => .bind (body inner _ _) fun _ =>
    finishCommon rfl (J.tokens_span same) (by decide)
      (fun known => by simp [known.1.2.mono (l := 1), known.2]) rfl

theorem elseBranch (alternate : Bool) : J.One scope front given 0 2
    (Parser.elseBranch g alternate) (Parser.elseBranch h alternate) :=
  .behind_token advance fun _ _ same => .bind (body inner _ _) fun _ =>
    finishCommon rfl (J.tokens_span same) (by decide) (fun known => by simp [known.2]) rfl

omit inner in
/-- Nodes that are read for as long as their word is there. -/
theorem collected {p q : Parser Nat} {k : Nat} (word : Keyword)
    (one : ∀ {front}, J.One scope front given 0 k p q) : J.Many scope front given k
      (Parser.repeatFrom [] fun items => do
        if ← Parser.check (.keyword word) then return .yield (items ++ [← p])
        return .done items)
      (Parser.repeatFrom [] fun items => do
        if ← Parser.check (.keyword word) then return .yield (items ++ [← q])
        return .done items) :=
  collect fun _ => .check _ fun _ => .ite .rfl
    (.bind (one.weaken And.left) fun _ =>
      pure rfl (fun known => by simp [known.1.2, known.2]) (by simp))
    (pure rfl And.right rfl)

theorem ifStatement :
    J.One scope front given 0 3 (Parser.ifStatement g) (Parser.ifStatement h) := by
  refine .behind_token advance fun _ _ same => .bind (condition inner) fun test =>
    .check _ fun alternate => .bind (body inner _ _) fun first =>
      .bind (collected _ (elseIfBranch inner alternate)) fun others => .check _ fun _ =>
        .bind (onlyIf _ (elseBranch inner alternate)) fun last =>
          close rfl (J.tokens_span same) (by decide) ?_ (by simp; omega)
  rintro ⟨⟨⟨⟨-, test⟩, first⟩, others⟩, last⟩
  simp [test.mono (l := 2), first.mono (l := 2), others, last]

theorem whileStatement :
    J.One scope front given 0 2 (Parser.whileStatement g) (Parser.whileStatement h) :=
  .behind_token advance fun _ _ same => .bind (condition inner) fun _ => .check _ fun _ =>
    .bind (body inner _ _) fun _ => close rfl (J.tokens_span same) (by decide)
      (fun known => by simp [known.1.2.mono (l := 1), known.2]) rfl

theorem doWhileStatement :
    J.One scope front given 0 2 (Parser.doWhileStatement g) (Parser.doWhileStatement h) :=
  .behind_token advance fun _ _ same => .bind (body inner _ _) fun _ => .then_ (past _ _) fun _ =>
    .bind (condition inner) fun _ => pushStatement rfl (J.tokens_span same) (by decide)
      (fun known => by simp [known.1.2, known.2.mono (l := 1)]) rfl

theorem forClause {kind : NodeKind} (common : kind.isCommon = true) (closing : TokenKind)
    (expected : String) : J.Many scope front given 1 (Parser.forClause g kind closing expected)
      (Parser.forClause h kind closing expected) := by
  refine .current fun _ _ same _ _ => .check _ fun _ => .bind (onlyIf _ ?_) fun _ =>
    .then_ (past _ _) fun _ => pure rfl And.right (Nat.zero_add _)
  exact .bind (expressions inner) fun _ =>
    finishCommon common (J.tokens_span same) (by decide) And.right (Nat.zero_add _)

theorem forStatement :
    J.One scope front given 0 2 (Parser.forStatement g) (Parser.forStatement h) := by
  refine .behind_token advance fun _ _ same => .then_ (past _ _) fun _ =>
    .bind (forClause inner rfl _ _) fun first => .bind (forClause inner rfl _ _) fun test =>
      .bind (forClause inner rfl _ _) fun update => .check _ fun _ => .bind (body inner _ _) fun body =>
        close rfl (J.tokens_span same) (by decide) ?_ (by simp; omega)
  rintro ⟨⟨⟨⟨-, first⟩, test⟩, update⟩, body⟩
  simp [first, test, update, body]

theorem foreachTargets : J.Says scope front given 0 (Parser.foreachTargets g)
    (Parser.foreachTargets h)
    (.of (fun targets => J.All scope 0 targets.2) fun targets => targets.2.length) := by
  refine .then_ (eatOperator _) fun _ => .bind (expression inner) fun first => .then_ (eat _) fun _ =>
    .ite .rfl ?_ (pure rfl (fun known => by simp [known.2]) rfl)
  exact .then_ (eatOperator _) fun _ => .bind (expression inner) fun _ =>
    pure rfl (fun known => by simp [known.1.2, known.2]) rfl

theorem foreachStatement :
    J.One scope front given 0 2 (Parser.foreachStatement g) (Parser.foreachStatement h) := by
  refine .behind_token advance fun _ _ same => .then_ (past _ _) fun _ => .bind (expression inner)
    fun subject => .then_ (past _ _) fun _ => .bind (foreachTargets inner) fun targets =>
      .then_ (past _ _) fun _ => .check _ fun _ => .bind (body inner _ _) fun body =>
        close rfl (J.tokens_span same) (by decide) ?_ (by simp; omega)
  rintro ⟨⟨⟨-, subject⟩, targets⟩, body⟩
  simp [subject.mono (l := 1), targets.mono (Nat.zero_le 1), body]

theorem labelTest : J.Says scope front given 0 (Parser.labelTest g) (Parser.labelTest h)
    (.of (fun test => J.All scope 0 test.2) fun test => test.2.length) := by
  refine .current fun a b same _ _ => ?_
  rw [same.kind]
  refine .ite .rfl ?_ (.ite .rfl ?_ (unexpected _))
  · exact .then_ skip fun _ => .bind (expression inner) fun _ =>
      pure rfl (fun known => by simp [known.2]) rfl
  · exact .then_ skip fun _ => pure rfl (fun _ => all_nil) rfl

theorem switchLabel :
    J.One scope front given 0 1 (Parser.switchLabel g) (Parser.switchLabel h) := by
  have told (a b : Token) (same : J.tokens a b) : Parser.endsLabel a = Parser.endsLabel b := by
    rw [Parser.endsLabel, Parser.endsLabel, same.kind]
  exact .current fun _ _ same _ _ => .bind (labelTest inner) fun _ => .then_ labelMark fun _ =>
    .bind (statements inner told) fun _ => finishCommon rfl (J.tokens_span same) (by decide)
      (fun known => by simp [known.1.2, known.2]) (by simp)

theorem switchStatement :
    J.One scope front given 0 2 (Parser.switchStatement g) (Parser.switchStatement h) := by
  refine .behind_token advance fun _ _ same => .bind (condition inner) fun subject =>
    .then_ switchOpening fun alternate => .then_ (discard (eat _)) fun _ =>
      .bind (P := J.All scope 1) (N := List.length) (collect fun labels => ?_) fun labels =>
        .then_ skip fun _ => ?_
  · exact .check _ fun _ => .ite .rfl (pure rfl And.right rfl) <| .bind (switchLabel inner) fun _ =>
      pure rfl (fun known => by simp [known.1.2, known.2]) (by simp)
  · have low (known : (given ∧ J.node scope 0 subject) ∧ J.All scope 1 labels) :
        J.All scope 1 (subject :: labels) := by simp [known.1.2.mono (l := 1), known.2]
    have span := J.tokens_span same
    exact .ite .rfl (pushStatement rfl span (by decide) low (by simp; omega))
      (finishCommon rfl span (by decide) low (by simp; omega))

theorem catchClause :
    J.One scope front given 0 2 (Parser.catchClause g) (Parser.catchClause h) :=
  .behind_token advance fun _ _ same => .then_ (past _ _) fun _ => .bind caughtTypes fun _ =>
    .then_ caughtVariable fun _ => .then_ (past _ _) fun _ => .bind (block inner) fun _ =>
      finish (J.facts.bound_of nofun) (fun known => known.1.2) (J.tokens_span same) (by decide)
        (fun known => by simpa [NodeKind.scopeBelow] using known.2) rfl

theorem finallyClause :
    J.One scope front given 0 2 (Parser.finallyClause g) (Parser.finallyClause h) :=
  .behind_token advance fun _ _ same => .bind (block inner) fun _ =>
    finishCommon rfl (J.tokens_span same) (by decide) (fun known => by simp [known.2]) rfl

theorem tryStatement :
    J.One scope front given 0 3 (Parser.tryStatement g) (Parser.tryStatement h) := by
  refine .behind_token advance fun _ _ same => .bind (block inner) fun body =>
    .bind (collected _ (catchClause inner)) fun clauses => .check _ fun _ =>
      .bind (onlyIf _ (finallyClause inner)) fun last => .ite .rfl (unexpected _) <|
        finishCommon rfl (J.tokens_span same) (by decide) ?_ (by simp; omega)
  rintro ⟨⟨⟨-, body⟩, clauses⟩, last⟩
  simp [body.mono (l := 2), clauses, last]

theorem jump {kind : NodeKind} (common : kind.isCommon = true) :
    J.One scope front given 0 1 (Parser.jump g kind) (Parser.jump h kind) := by
  refine .behind_token advance fun _ _ same => .current fun a b next _ _ => ?_
  rw [next.kind]
  exact .bind (onlyIf _ (expression inner)) fun _ =>
    pushStatement common (J.tokens_span same) (by decide) And.right (Nat.zero_add _)

theorem listStatement {kind : NodeKind} (common : kind.isCommon = true) :
    J.One scope front given 0 1 (Parser.listStatement g kind) (Parser.listStatement h kind) :=
  .behind_token advance fun _ _ same => .bind (expressions inner) fun _ =>
    pushStatement common (J.tokens_span same) (by decide) And.right (Nat.zero_add _)

theorem throwStatement :
    J.One scope front given 0 1 (Parser.throwStatement g) (Parser.throwStatement h) :=
  .behind_token advance fun _ _ same => .bind (expression inner) fun _ =>
    pushStatement rfl (J.tokens_span same) (by decide) (fun known => by simp [known.2]) rfl

theorem unsetStatement :
    J.One scope front given 0 1 (Parser.unsetStatement g) (Parser.unsetStatement h) :=
  .behind_token advance fun _ _ same => .bind (callOperands inner) fun _ =>
    pushStatement rfl (J.tokens_span same) (by decide) And.right (Nat.zero_add _)

theorem staticVariable :
    J.One scope front given 0 2 (Parser.staticVariable g) (Parser.staticVariable h) := by
  refine .behind_token (expect _ _) fun a b same => ?_
  have span := J.tokens_span same
  rw [same.text]
  refine .bind (pushCommon (k := 0) rfl span (by decide) (fun _ => all_nil) rfl) fun target =>
    .then_ (eatOperator _) fun _ => .ite .rfl (.bind (expression inner) fun value => ?_)
      (pure rfl (fun known => known.2.mono (by decide)) rfl)
  refine .node fun x y _ there => ?_
  exact pushCommon rfl (J.spans_merge span there) (by decide)
    (fun known => by simp [known.1.2, known.2.mono (l := 1)]) rfl

theorem staticVariables :
    J.One scope front given 0 3 (Parser.staticVariables g) (Parser.staticVariables h) :=
  .behind_token advance fun _ _ same => .bind (commaSeparated (staticVariable inner)) fun _ =>
    pushStatement rfl (J.tokens_span same) (by decide) And.right (Nat.zero_add _)

theorem expressionStatement : J.One scope front given 0 1 (Parser.expressionStatement g)
    (Parser.expressionStatement h) :=
  .current fun _ _ same _ _ => .bind (expression inner) fun _ =>
    pushStatement rfl (J.tokens_span same) (by decide) (fun known => by simp [known.2]) rfl

theorem keywordStatement (word : Keyword) : J.One scope True given 0 6
    (Parser.keywordStatement g word) (Parser.keywordStatement h word) := by
  have within {p q : Parser Nat} {k : Nat} (le : k ≤ 6) (one : J.One scope True given 0 k p q) :
      J.One scope True given 0 6 p q :=
    one.mono fun _ low => low.mono le
  have value : J.One scope True given 0 6 (Parser.expressionStatement g)
      (Parser.expressionStatement h) :=
    within (by decide) (expressionStatement inner)
  unfold Parser.keywordStatement
  split
  · exact within (by decide) (ifStatement inner)
  · exact within (by decide) (whileStatement inner)
  · exact within (by decide) (doWhileStatement inner)
  · exact within (by decide) (forStatement inner)
  · exact within (by decide) (foreachStatement inner)
  · exact within (by decide) (switchStatement inner)
  · exact within (by decide) (jump inner rfl)
  · exact within (by decide) (jump inner rfl)
  · exact within (by decide) (jump inner rfl)
  · exact within (by decide) (listStatement inner rfl)
  · exact within (by decide) (tryStatement inner)
  · exact within (by decide) (throwStatement inner)
  · exact within (by decide) (listStatement inner rfl)
  · exact within (by decide) (unsetStatement inner)
  · exact within (by decide) (constantDeclaration inner)
  · refine .ahead 1 fun x y next => ?_
    rw [next.kind]
    exact .ite .rfl (within (by decide) (staticVariables inner)) value
  · exact namesFunction fun _ => .ite .rfl (within (by decide) (functionDeclaration inner)) value
  · exact within (by decide) (classDeclaration inner)
  · exact within (by decide) (classDeclaration inner)
  · exact within (by decide) (classDeclaration inner)
  · exact within (by decide) (interfaceDeclaration inner)
  · exact within (by decide) (traitDeclaration inner)
  · exact value

/-- A keyword is no mark of the end. -/
theorem statement : J.Says scope front given 0 (Parser.statement g) (Parser.statement h)
    (J.perhaps scope 6) := by
  refine .current fun a b same _ _ => ?_
  have node {front : Prop} {k : Nat} {p q : Parser Nat} (le : k ≤ 6)
      (one : J.One scope front given 0 k p q) :
      J.Says scope front given 0 (some <$> p) (some <$> q) (J.perhaps scope 6) :=
    map (one.mono fun _ low => by simp [low.mono le])
  have empty {front : Prop} : J.Says scope front given 0 (do Parser.skip; return none)
      (do Parser.skip; return none) (J.perhaps scope 6) :=
    .then_ skip fun _ => pure rfl (fun _ => all_nil) rfl
  rw [same.kind]
  cases b.kind with
  | semicolon => exact empty
  | closeTag => exact empty
  | leftBrace => exact node (by decide) (block inner)
  | keyword word =>
    exact J.says_weaken (fun _ _ => nofun) id (node (Nat.le_refl 6) (keywordStatement inner word))
  | _ => exact node (by decide) (expressionStatement inner)

end Says

end Judgement

end PhpAnalyser
