import PhpAnalyser.Proofs.Production.Primitive
/-!
The walk over the productions of names and expressions. The number of a judgement counts the nodes
that a production may put above what is nested in it.
-/
namespace PhpAnalyser

namespace Judgement

namespace Says

variable {J : Judgement} {scope : Option TypeScope} {front given : Prop} {n : Nat}

theorem nameTail (written : String) :
    J.Plain scope front given (Parser.nameTail written) (Parser.nameTail written) := by
  refine repeated fun written => .current fun a b same _ _ => ?_
  rw [same.kind, same.text]
  refine .ite .rfl (.ite .rfl (.then_ skip fun _ => done) (unexpected _)) ?_
  refine .ahead 1 fun x y next => ?_
  rw [next.kind]
  exact .ite .rfl (.then_ skip fun _ => done) done

theorem nameHead : J.Plain scope front given Parser.nameHead Parser.nameHead := by
  refine .current fun a b same _ _ => .ahead 1 fun x y next => ?_
  rw [same.kind, same.text, next.kind]
  exact .ite .rfl (.then_ skip fun _ => done) <| .ite .rfl (.then_ skip fun _ => done) <|
    .ite .rfl (.then_ skip fun _ => done) (unexpected _)

theorem name : J.Says scope front given 0 Parser.name Parser.name
    (J.placed.holding fun name => J.facts.written name.1) := by
  refine J.says_name (v := J.placed) (.current fun a b same _ _ => ?_)
  refine .then_ nameHead fun _ => .then_ (nameTail _) fun _ =>
    .behind_span (spanFrom (J.tokens_span same)) fun _ _ span => ?_
  exact give ⟨rfl, span⟩ (fun _ => trivial) rfl

/-- What follows a name may use the name, but not its span. -/
theorem behind_name {p q : String × Span → Parser α} {v : Verdict J.exact α}
    (next : ∀ written a b, J.spans a b →
      J.Says scope False (given ∧ J.facts.written written) n (p (written, a)) (q (written, b)) v) :
    J.Says scope front given n (Parser.name >>= p) (Parser.name >>= q) v := by
  refine J.says_bind (n := n) name ?_
  rintro ⟨written, a⟩ ⟨_, b⟩ ⟨rfl, same⟩
  exact next written a b same

theorem className : J.Says scope front given 0 Parser.className Parser.className
    (.of J.facts.fine fun _ => 0) :=
  behind_name fun _ _ _ _ => J.says_look fun _ _ view seen _ =>
    pure (by rw [view.names]) (fun known => J.facts.fine_resolve seen known.2) rfl

theorem classNames : J.Says scope front given 0 Parser.classNames Parser.classNames
    (.of (fun names => ∀ name ∈ names, J.facts.fine name) fun _ => 0) :=
  commaSeparatedAll className

theorem memberName : J.Says scope front given 0 Parser.memberName Parser.memberName
    (J.token fun _ => True) := by
  refine .current fun a b same _ _ => ?_
  rw [same.kind]
  exact .ite .rfl advance (unexpected _)

theorem typeAtom : J.Plain scope front given Parser.typeAtom Parser.typeAtom := by
  refine .current fun a b same _ _ => ?_
  have named {front : Prop} : J.Plain scope front given
      (do
        let written ← Parser.name
        if Parser.builtinTypes.contains (asciiLower written.1) then return asciiLower written.1
        return (← MonadState.get).names.resolve written.1)
      (do
        let written ← Parser.name
        if Parser.builtinTypes.contains (asciiLower written.1) then return asciiLower written.1
        return (← MonadState.get).names.resolve written.1) :=
    behind_name fun _ _ _ _ => .ite .rfl done <| J.says_look fun _ _ view _ _ =>
      pure (by rw [view.names]) (fun _ => trivial) rfl
  rw [same.kind, same.text]
  split
  case h_1 | h_2 | h_3 => exact .then_ skip fun _ => done
  case h_4 | h_5 | h_6 => exact named
  case h_7 => exact unexpected _

theorem typeHint : J.Plain scope front given Parser.typeHint Parser.typeHint :=
  .then_ (eat _) fun _ => repeated fun _ => .then_ typeAtom fun _ =>
    .then_ (eatOperator "|") fun _ => .ite .rfl done done

theorem returnType : J.Plain scope front given Parser.returnType Parser.returnType :=
  .then_ (eat _) fun _ => .ite .rfl (discard typeHint) done

theorem promotions : J.Plain scope front given Parser.promotions Parser.promotions := by
  have promotes {front : Prop} : J.Plain scope front given Parser.promotes Parser.promotes := by
    refine .current fun a b same _ _ => ?_
    rw [same.kind, same.text]
    split
    case h_4 => exact .ahead 1 fun _ _ next => pure (by rw [next.kind]) (fun _ => trivial) rfl
    all_goals exact done
  exact repeated fun _ => .then_ promotes fun _ => .ite .rfl (.then_ skip fun _ => done) done

theorem parameterHint : J.Plain scope front given Parser.parameterHint Parser.parameterHint := by
  refine .current fun a b same _ _ => ?_
  rw [same.kind, same.is_operator]
  exact .ite .rfl done (map typeHint)

theorem argumentName : J.Plain scope front given Parser.argumentName Parser.argumentName := by
  refine .current fun a b same _ _ => .ahead 1 fun x y next => ?_
  rw [same.kind, next.kind]
  exact .ite .rfl (.then_ skip fun _ => skip) done

theorem memberWord : J.Says scope front given 0 Parser.memberWord Parser.memberWord
    (J.token fun _ => True) :=
  .check _ fun _ => .ite .rfl advance memberName

/-- A name stands for a function, a type or a constant. -/
theorem nameExpression : J.One scope front given 0 1 Parser.nameExpression
    Parser.nameExpression := by
  refine behind_name fun written a b span => J.says_look fun s t view seen _ =>
    .current fun x y same _ _ => ?_
  dsimp only
  rw [same.kind, view.names]
  split
  · exact pushCommon rfl span (by decide) (fun _ => all_nil) rfl
  · refine J.says_push (J.facts.bound_of nofun) (fun known => ?_) span (by decide)
      (fun _ => all_nil) fun _ _ => rfl
    have fine := J.facts.fine_resolve seen known.2
    simpa [NodeKind.typeNames, ← view.names] using fine
  · exact pushCommon rfl span (by decide) (fun _ => all_nil) rfl

theorem classReference : J.One scope front given 0 1 Parser.classReference
    Parser.classReference := by
  refine behind_name fun written a b span => J.says_look fun s t view seen _ => ?_
  rw [← view.names]
  refine J.says_push (J.facts.bound_of nofun) (fun known => ?_) span (by decide)
    (fun _ => all_nil) fun _ _ => rfl
  have fine := J.facts.fine_resolve seen known.2
  simpa [NodeKind.typeNames] using fine

/-- What a late-bound keyword stands for depends on the scope alone. -/
theorem lateBound : J.One scope front given 0 1 Parser.lateBound Parser.lateBound := by
  refine .behind_token advance fun a b same => J.says_look fun s t view seen _ => ?_
  rw [same.kind, ← view.scope]
  split
  next target known =>
    obtain ⟨bound, fine⟩ := J.facts.bound_late seen known
    exact J.says_push bound (fun _ => fine) (J.tokens_span same) (by decide) (fun _ => all_nil)
      fun _ _ => rfl
  next => exact J.says_throw rfl (J.tokens_span same)

theorem literal (kind : LiteralKind) :
    J.One scope front given 0 1 (Parser.literal kind) (Parser.literal kind) := by
  refine .behind_token advance fun a b same => ?_
  rw [same.text]
  exact pushCommon rfl (J.tokens_span same) (by decide) (fun _ => all_nil) rfl

section Productions

variable {g h : Nested} (inner : J.Inner g h)
include inner

theorem expression : J.One scope front given 0 0 (Parser.expression g) (Parser.expression h) :=
  inner.expression 0

theorem expressions :
    J.Many scope front given 0 (Parser.expressions g) (Parser.expressions h) :=
  commaSeparated (expression inner)

theorem condition : J.One scope front given 0 0 (Parser.condition g) (Parser.condition h) :=
  .then_ (past _ _) fun _ => .bind (expression inner) fun _ =>
    .then_ (past _ _) fun _ => pure rfl And.right rfl

theorem braced : J.One scope front given 0 0 (Parser.braced g) (Parser.braced h) :=
  .bind (expression inner) fun _ => .then_ (past _ _) fun _ => pure rfl And.right rfl

theorem statements {stop : Token → Bool} (told : ∀ a b, J.tokens a b → stop a = stop b) :
    J.Many scope front given 0 (Parser.statements g stop) (Parser.statements h stop) :=
  recovering told (.bind inner.statement fun _ => pure rfl And.right (Nat.zero_add _))

theorem block : J.One scope front given 0 1 (Parser.block g) (Parser.block h) :=
  .behind_token (expect _ _) fun _ _ same =>
    .bind (statements inner fun _ _ here => by rw [here.kind]) fun _ => .then_ (past _ _) fun _ =>
      finishCommon rfl (J.tokens_span same) (by decide) And.right (Nat.zero_add _)

theorem formalParameter :
    J.One scope front given 0 1 (Parser.formalParameter g) (Parser.formalParameter h) :=
  .current fun _ _ same _ _ => .then_ promotions fun _ => .then_ parameterHint fun _ =>
    .then_ (eatOperator _) fun _ => .then_ (eat _) fun _ => .behind_token (expect _ _) fun _ _ word =>
      .then_ (eatOperator _) fun _ => .bind (onlyIf _ (expression inner)) fun _ => by
        rw [word.text]
        exact finishCommon rfl (J.tokens_span same) (by decide) And.right (Nat.zero_add _)

theorem formalParameters :
    J.One scope front given 0 2 (Parser.formalParameters g) (Parser.formalParameters h) :=
  .behind_token (expect _ _) fun _ _ same => .bind (commaList _ (formalParameter inner)) fun _ =>
    .then_ (past _ _) fun _ =>
      finishCommon rfl (J.tokens_span same) (by decide) And.right (Nat.zero_add _)

theorem argument : J.One scope front given 0 0 (Parser.argument g) (Parser.argument h) :=
  .then_ (discard (eat _)) fun _ => .then_ (discard (eatOperator _)) fun _ =>
    .then_ argumentName fun _ => expression inner

theorem arguments : J.One scope front given 0 1 (Parser.arguments g) (Parser.arguments h) := by
  refine .behind_token (expect _ _) fun _ _ same => .bind (collect fun values => ?_) fun _ =>
    .then_ (past _ _) fun _ =>
      finishCommon rfl (J.tokens_span same) (by decide) And.right (Nat.zero_add _)
  refine .check _ fun _ => .ite .rfl (pure rfl And.right rfl) <| .check _ fun _ =>
    .ahead 1 fun x y next => ?_
  rw [next.kind]
  exact .ite .rfl (.then_ skip fun _ => pure rfl And.right rfl)
    (behindItem And.right (argument inner))

/-- However many dollars stand in front of each other, the node is only two levels above what is in
its braces. -/
theorem variableWithin (fuel : Nat) : J.Says scope front given 0 (Parser.variableWithin g fuel)
    (Parser.variableWithin h fuel) (.of (J.dollar scope) fun _ => 1) := by
  induction fuel generalizing front with
  | zero => exact stuck
  | succ fuel ih =>
    refine .current fun a b same _ _ => ?_
    rw [same.kind, same.text]
    refine .ite .rfl (.then_ skip fun _ => ?_) (.then_ (past _ _) fun _ => .then_ (eat _) fun _ => ?_)
    · have one : J.One scope False given 0 1 (Parser.push (.variable_ b.text) a.span [])
          (Parser.push (.variable_ b.text) b.span []) :=
        pushCommon rfl (J.tokens_span same) (by decide) (fun _ => all_nil) rfl
      exact one.mono fun _ => J.dollar_of_node
    · have braces {front : Prop} : J.Says scope front given 0 (Parser.braced g) (Parser.braced h)
          (.of (J.dollar scope) fun _ => 1) :=
        (braced inner).mono fun _ low => J.dollar_of_node (low.mono (Nat.zero_le 1))
      refine .bind (.ite .rfl braces ih) fun i => .behind_span (spanFrom (J.tokens_span same))
        fun _ _ span => J.says_dollar span And.right

theorem variableExpression :
    J.One scope front given 0 2 (Parser.variableExpression g) (Parser.variableExpression h) :=
  .remaining fun _ => (variableWithin inner _).mono fun _ => J.node_of_dollar

theorem parenthesized :
    J.One scope front given 0 1 (Parser.parenthesized g) (Parser.parenthesized h) :=
  .current fun _ _ same _ _ => .bind (condition inner) fun _ =>
    finishCommon rfl (J.tokens_span same) (by decide) (fun known => by simp [known.2]) rfl

theorem callOperands :
    J.Many scope front given 0 (Parser.callOperands g) (Parser.callOperands h) :=
  .then_ (past _ _) fun _ => .bind (commaList _ (expression inner)) fun _ =>
    .then_ (past _ _) fun _ => pure rfl And.right (Nat.zero_add _)

theorem arrayElement :
    J.One scope front given 0 1 (Parser.arrayElement g) (Parser.arrayElement h) := by
  refine .current fun a b same _ _ => .then_ (discard (eat _)) fun _ =>
    .then_ (eatOperator _) fun byRef => .bind (expression inner) fun first =>
      .then_ (.ite .rfl done (eat _)) fun isKey => .ite .rfl ?_ ?_
  · refine .then_ (eatOperator _) fun _ => .bind (expression inner) fun value => ?_
    exact finishCommon rfl (J.tokens_span same) (by decide)
      (fun known => by simp [known.1.2, known.2]) rfl
  · exact finishCommon rfl (J.tokens_span same) (by decide) (fun known => by simp [known.2]) rfl

theorem arrayElements (close : TokenKind) :
    J.Many scope front given 1 (Parser.arrayElements g close) (Parser.arrayElements h close) :=
  collect fun _ => .check _ fun _ => .ite .rfl (pure rfl And.right rfl) <|
    .then_ (eat _) fun _ => .ite .rfl (pure rfl And.right rfl)
      (behindItem And.right (arrayElement inner))

section Starts

variable {a b : Span} (same : J.spans a b)
include same

theorem shortArray :
    J.One scope front given 0 2 (Parser.shortArray g a) (Parser.shortArray h b) :=
  .then_ (past _ _) fun _ => .bind (arrayElements inner _) fun _ => .then_ (past _ _) fun _ =>
    finishCommon rfl same (by decide) And.right (Nat.zero_add _)

theorem longArray : J.One scope front given 0 2 (Parser.longArray g a) (Parser.longArray h b) :=
  .then_ (past _ _) fun _ => .bind (arrayElements inner _) fun _ => .then_ (past _ _) fun _ =>
    finishCommon rfl same (by decide) And.right (Nat.zero_add _)

omit same in
theorem closureUses :
    J.One scope front given 0 3 (Parser.closureUses g) (Parser.closureUses h) :=
  .behind_token advance fun _ _ same => .then_ (past _ _) fun _ =>
    .bind (commaList _ (.then_ (discard (eatOperator _)) fun _ => variableExpression inner)) fun _ =>
      .then_ (past _ _) fun _ =>
        finishCommon rfl (J.tokens_span same) (by decide) And.right (Nat.zero_add _)

theorem closure (isStatic : Bool) :
    J.One scope front given 0 4 (Parser.closure g a isStatic) (Parser.closure h b isStatic) := by
  refine .then_ (past _ _) fun _ => .then_ (eatOperator _) fun _ =>
    .bind (formalParameters inner) fun parameters => .check _ fun _ =>
      .bind (onlyIf _ (closureUses inner)) fun captured => .then_ returnType fun _ =>
        .bind (block inner) fun body => finishCommon rfl same (by decide) ?_ (by simp; omega)
  rintro ⟨⟨⟨-, parameters⟩, captured⟩, body⟩
  simp [parameters.mono (l := 3), captured, body.mono (l := 3)]

theorem arrowFunction (isStatic : Bool) : J.One scope front given 0 3
    (Parser.arrowFunction g a isStatic) (Parser.arrowFunction h b isStatic) := by
  refine .then_ skip fun _ => .then_ (eatOperator _) fun _ =>
    .bind (formalParameters inner) fun parameters => .then_ returnType fun _ =>
      .then_ (past _ _) fun _ => .bind (inner.expression _) fun body =>
        finishCommon rfl same (by decide) ?_ rfl
  rintro ⟨⟨-, parameters⟩, body⟩
  simp [parameters, body.mono (l := 2)]

omit same in
theorem exitOperands :
    J.Many scope front given 0 (Parser.exitOperands g) (Parser.exitOperands h) :=
  .check _ fun _ => .ite .rfl (callOperands inner) (pure rfl (fun _ => all_nil) rfl)

omit inner same in
theorem isArrowWord {x y : Token} (next : J.tokens x y) :
    Parser.isArrowWord x = Parser.isArrowWord y := by
  rw [Parser.isArrowWord, Parser.isArrowWord, next.text]

theorem keywordPrimary (word : Keyword) : J.One scope front given 0 4
    (Parser.keywordPrimary g word a) (Parser.keywordPrimary h word b) := by
  refine .ahead 1 fun x y next => ?_
  rw [next.kind, isArrowWord next]
  have operands {kind : NodeKind} (common : kind.isCommon = true) {p q : Parser (List Nat)}
      (many : J.Many scope False given 0 p q) : J.One scope front given 0 4
        (do Parser.skip; Parser.finish kind a (← p))
        (do Parser.skip; Parser.finish kind b (← q)) :=
    .then_ skip fun _ => .bind many fun _ => finishCommon common same (by decide)
      (fun known => known.2.mono (Nat.zero_le 3)) (Nat.zero_add _)
  have arrow : J.One scope False given 0 4 (Parser.arrowFunction g a true)
      (Parser.arrowFunction h b true) :=
    (arrowFunction inner same true).mono fun _ low => low.mono (by decide)
  have keyword : J.One scope front given 0 4 Parser.lateBound Parser.lateBound :=
    lateBound.mono fun _ low => low.mono (by decide)
  have named : J.One scope front given 0 4 Parser.nameExpression Parser.nameExpression :=
    nameExpression.mono fun _ low => low.mono (by decide)
  have array : J.One scope False given 0 4 (Parser.longArray g a) (Parser.longArray h b) :=
    (longArray inner same).mono fun _ low => low.mono (by decide)
  cases word with
  | namespace_ => exact .ite .rfl named (unexpected _)
  | static_ =>
    exact .ite .rfl (.then_ skip fun _ => closure inner same _) <|
      .ite .rfl (.then_ skip fun _ => arrow) keyword
  | self_ => exact keyword
  | parent_ => exact keyword
  | function_ => exact closure inner same _
  | array_ => exact .ite .rfl (.then_ skip fun _ => array) (unexpected _)
  | isset_ => exact operands rfl (callOperands inner)
  | empty_ => exact operands rfl (callOperands inner)
  | exit_ => exact operands rfl (exitOperands inner)
  | die_ => exact operands rfl (exitOperands inner)
  | _ => exact unexpected _

end Starts

theorem primary : J.One scope front given 0 4 (Parser.primary g) (Parser.primary h) := by
  refine .current fun a b same _ _ => ?_
  have span := J.tokens_span same
  have at_ {front : Prop} {k : Nat} {p q : Parser Nat} (le : k ≤ 4)
      (one : J.One scope front given 0 k p q) : J.One scope front given 0 4 p q :=
    one.mono fun _ low => low.mono le
  have named {front : Prop} : J.One scope front given 0 4
      (do
        let following ← Parser.ahead 1
        if Parser.isArrowWord a && (following.kind = .leftParen || following.isOperator "&") then
          Parser.arrowFunction g a.span false
        else Parser.nameExpression)
      (do
        let following ← Parser.ahead 1
        if Parser.isArrowWord b && (following.kind = .leftParen || following.isOperator "&") then
          Parser.arrowFunction h b.span false
        else Parser.nameExpression) := by
    refine .ahead 1 fun x y next => ?_
    rw [isArrowWord same, next.kind, next.is_operator]
    exact .ite .rfl (at_ (by decide) (arrowFunction inner span _)) (at_ (by decide) nameExpression)
  rw [same.kind]
  cases b.kind with
  | «variable» => exact at_ (by decide) (variableExpression inner)
  | dollar => exact at_ (by decide) (variableExpression inner)
  | integer => exact at_ (by decide) (literal _)
  | float => exact at_ (by decide) (literal _)
  | string => exact at_ (by decide) (literal _)
  | identifier => exact named
  | backslash => exact at_ (by decide) nameExpression
  | leftBracket => exact at_ (by decide) (shortArray inner span)
  | leftParen => exact at_ (by decide) (parenthesized inner)
  | keyword word => exact keywordPrimary inner span word
  | _ => exact unexpected _

/-- An element of what is at least as high as `k`. -/
theorem arrayIndex {base k : Nat} (room : k < 6) (low : given → J.node scope (k + 1) base) :
    J.One scope front given 1 (k + 1) (Parser.arrayIndex g base) (Parser.arrayIndex h base) :=
  .then_ skip fun _ => .check _ fun _ => .bind (onlyIf _ (expression inner)) fun _ =>
    .then_ (past _ _) fun _ => wrap rfl room (fun known => low known.1)
      (fun known => known.2.mono (Nat.zero_le k)) (Nat.add_comm _ _)

theorem stringIndex {base : Nat} (low : given → J.node scope 4 base) :
    J.One scope front given 1 4 (Parser.stringIndex g base) (Parser.stringIndex h base) :=
  .then_ skip fun _ => .bind (braced inner) fun _ => wrap rfl (by decide) (fun known => low known.1)
    (fun known => by simp [known.2.mono (Nat.zero_le 3)]) rfl

/-- The expression in braces is left to the member that it names. -/
theorem memberTarget : J.Says scope front given 0 (Parser.memberTarget g) (Parser.memberTarget h)
    (.of (fun _ => True) fun target => if target.1 = "{}" then 1 else 0) := by
  refine .then_ (eat _) fun _ => .ite .rfl ?_ ?_
  · exact .bind (P := fun _ => True) (N := fun _ => 1) (map (braced inner).any) fun _ =>
      pure rfl (fun _ => trivial) rfl
  · refine J.says_bind (n := 0) memberWord fun a b same => ?_
    rw [← same.text, ← same.kind]
    refine J.says_pure rfl (fun _ => trivial) fun known counting => ?_
    have unbraced := J.facts.unbraced counting known.2.1
    simp [token, unbraced]

theorem selectedMember (isStatic : Bool) : J.One scope front given 0 2
    (Parser.selectedMember g isStatic) (Parser.selectedMember h isStatic) := by
  refine .current fun a b same _ _ => .bind (memberTarget inner) fun target => .check _ fun _ =>
    .ite .rfl ?_ (.ite .rfl ?_ ?_)
  · refine .bind (arguments inner) fun values => finish (J.facts.bound_of nofun)
      (fun _ => by simp [NodeKind.typeNames]) (J.tokens_span same) (by decide)
      (fun known => by simpa [NodeKind.scopeBelow] using known.2) ?_
    simp [NodeKind.isNamedByExpression, Nat.add_comm]
  · exact finish (J.facts.bound_of nofun) (fun _ => by simp [NodeKind.typeNames])
      (J.tokens_span same) (by decide) (fun _ => all_nil) (by simp [NodeKind.isNamedByExpression])
  · exact finish (J.facts.bound_of nofun) (fun _ => by simp [NodeKind.typeNames])
      (J.tokens_span same) (by decide) (fun _ => all_nil) (by simp [NodeKind.isNamedByExpression])

section Links

variable {base : Nat} (low : given → J.node scope 4 base)
include low

theorem memberAccess (isStatic : Bool) : J.One scope front given 1 4
    (Parser.memberAccess g isStatic base) (Parser.memberAccess h isStatic base) :=
  .then_ skip fun _ => .bind (selectedMember inner isStatic) fun _ => wrap rfl (by decide)
    (fun known => low known.1) (fun known => by simp [known.2.mono (l := 3)]) rfl

theorem functionCall :
    J.One scope front given 1 4 (Parser.functionCall g base) (Parser.functionCall h base) :=
  .bind (arguments inner) fun _ => wrap rfl (by decide) (fun known => low known.1)
    (fun known => by simp [known.2.mono (l := 3)]) rfl

omit inner in
theorem postfixed {kind : NodeKind} (common : kind.isCommon = true) :
    J.One scope front given 1 5 (Parser.postfixed kind base) (Parser.postfixed kind base) :=
  .then_ skip fun _ => wrapCommon common (by decide) (fun known => by simp [low known]) rfl

/-- A link of a chain takes up the chain so far; only an increment, behind which the chain ends, is
higher. In front of a brace, the emptiness of the trivia decides. -/
theorem chainLink : J.Says scope front given 1 (Parser.chainLink g base) (Parser.chainLink h base)
    (.of (Leaves (J.node scope 4) (J.node scope 5)) fun _ => 1) := by
  refine .current fun a b same _ _ => ?_
  have stays {front : Prop} : J.Says scope front given 1 (Pure.pure (.done base))
      (Pure.pure (.done base)) (.of (Leaves (J.node scope 4) (J.node scope 5)) fun _ => 1) :=
    pure rfl (fun known => (low known).mono (by decide)) rfl
  have trivia := (J.tokens_alike same).trivia
  rw [same.text]
  rw [same.kind] at trivia ⊢
  cases kind : b.kind with
  | leftBracket => exact goes (arrayIndex inner (by decide) low)
  | leftBrace =>
    rw [trivia kind]
    exact .kindOf base fun _ => .ite .rfl (goes (stringIndex inner low)) stays
  | arrow => exact goes (memberAccess inner low _)
  | doubleColon => exact goes (memberAccess inner low _)
  | leftParen => exact goes (functionCall inner low)
  | operator =>
    exact .ite .rfl (ends (postfixed low rfl)) (.ite .rfl (ends (postfixed low rfl)) stays)
  | _ => exact stays

theorem chain : J.One scope front given 1 5 (Parser.chain g base) (Parser.chain h base) :=
  repeatFrom (I := J.node scope 4) (N := fun _ => 1) low fun _ => chainLink inner And.right

end Links

omit inner in
/-- The property of a class is named by a word. -/
theorem propertyWord : J.One scope front given 0 1 Parser.propertyWord Parser.propertyWord := by
  refine J.says_bind (n := 0) memberWord fun a b same => ?_
  rw [← same.text]
  refine J.says_push (J.facts.bound_of nofun) (fun _ => by simp [NodeKind.typeNames])
    (J.tokens_span same) (by decide) (fun _ => all_nil) fun known counting => ?_
  have unbraced := J.facts.unbraced counting known.2.1
  simp [token, NodeKind.isNamedByExpression, unbraced]

omit inner in
/-- A property in the name of a class is no higher than what it is a property of. -/
theorem classProperty {base : Nat} (low : given → J.node scope 2 base) (isStatic : Bool) :
    J.One scope front given 1 2 (Parser.classProperty isStatic base)
      (Parser.classProperty isStatic base) :=
  .then_ skip fun _ => .bind propertyWord fun _ => wrap rfl (by decide) (fun known => low known.1)
    (fun known => by simp [known.2]) rfl

theorem classLink {base : Nat} (low : given → J.node scope 2 base) :
    J.Says scope front given 1 (Parser.classLink g base) (Parser.classLink h base)
      (.of (Leaves (J.node scope 2) (J.node scope 2)) fun _ => 1) := by
  refine .current fun a b same _ _ => ?_
  rw [same.kind]
  refine .ite .rfl (goes (arrayIndex inner (by decide) low)) <|
    .ite .rfl (goes (classProperty low _)) (.ahead 1 fun x y next => ?_)
  rw [next.kind]
  exact .ite .rfl (goes (classProperty low _)) (pure rfl low rfl)

theorem dynamicClass :
    J.One scope front given 0 2 (Parser.dynamicClass g) (Parser.dynamicClass h) :=
  .bind (variableExpression inner) fun _ =>
    repeatFrom (I := J.node scope 2) (N := fun _ => 1) And.right fun _ =>
      classLink inner And.right

theorem newTarget : J.One scope front given 0 2 (Parser.newTarget g) (Parser.newTarget h) := by
  refine .current fun a b same _ _ => ?_
  have above {front : Prop} {p q : Parser Nat} (one : J.One scope front given 0 1 p q) :
      J.One scope front given 0 2 p q :=
    one.mono fun _ low => low.mono (by decide)
  rw [same.kind]
  split
  · exact above classReference
  · exact above classReference
  · exact above classReference
  · exact dynamicClass inner
  · exact dynamicClass inner
  · exact above (parenthesized inner)
  · exact .ite .rfl (above lateBound) (unexpected _)
  · exact unexpected _

theorem allocation :
    J.One scope front given 0 3 (Parser.allocation g) (Parser.allocation h) := by
  refine .behind_token advance fun _ _ same => .bind (newTarget inner) fun target => .check _ fun _ =>
    .bind (onlyIf _ (arguments inner)) fun values =>
      finishCommon rfl (J.tokens_span same) (by decide) ?_ (by simp; omega)
  rintro ⟨⟨-, target⟩, values⟩
  exact all_cons.mpr ⟨target, values.mono (by decide)⟩

theorem assignment {target : Nat} (low : given → J.node scope 5 target) :
    J.One scope front given 1 6 (Parser.assignment g target) (Parser.assignment h target) := by
  refine .behind_token advance fun a b same => ?_
  rw [same.text]
  refine .then_ (.ite .rfl (eatOperator _) done) fun _ => .bind (inner.expression _) fun value => ?_
  exact wrapCommon rfl (by decide)
    (fun known => by simp [low known.1, known.2.mono (Nat.zero_le 5)]) rfl

theorem assignable :
    J.One scope front given 0 6 (Parser.assignable g) (Parser.assignable h) := by
  refine .bind (primary inner) fun base => .pass (n := 0) (m := 1) (chain inner And.right)
    fun target => .current fun a b same _ _ => .kindOf target fun _ => ?_
  rw [same.kind, same.text]
  exact .ite .rfl (assignment inner And.right) (pure rfl (fun known => known.2.mono (by decide)) rfl)

theorem prefixed {kind : NodeKind} (common : kind.isCommon = true) (power : Nat) :
    J.One scope front given 0 6 (Parser.prefixed g kind power) (Parser.prefixed h kind power) :=
  .behind_token advance fun _ _ same => .bind (inner.expression power) fun _ =>
    finishCommon common (J.tokens_span same) (by decide)
      (fun known => by simp [known.2.mono (Nat.zero_le 5)]) rfl

omit inner in
theorem common_of_unary {text : String} {kind : NodeKind} {power : Nat}
    (sign : unaryKind? text = some (kind, power)) : kind.isCommon = true := by
  unfold unaryKind? at sign
  repeat' split at sign
  all_goals cases sign
  all_goals rfl

theorem unary : J.One scope front given 0 6 (Parser.unary g) (Parser.unary h) := by
  refine .current fun a b same _ _ => ?_
  rw [same.kind, same.text]
  split
  · split
    next kind power sign => exact prefixed inner (common_of_unary sign) power
    next => exact unexpected _
  · exact prefixed inner rfl _
  · refine .bind ((allocation inner).mono fun _ low => low.mono (l := 4) (by decide)) fun base => ?_
    exact (chain inner And.right).mono fun _ low => low.mono (by decide)
  · exact prefixed inner rfl _
  · exact prefixed inner rfl _
  · exact prefixed inner rfl _
  · exact prefixed inner rfl _
  · exact prefixed inner rfl _
  · exact prefixed inner rfl _
  · exact assignable inner

theorem rightOperand (op : String) (power : Nat) : J.One scope front given 0 1
    (Parser.rightOperand g op power) (Parser.rightOperand h op power) := by
  have nested {front : Prop} :
      J.One scope front given 0 1 (g.expression power) (h.expression power) :=
    (inner.expression power).mono fun _ low => low.mono (by decide)
  refine .ite .rfl (.current fun a b same _ _ => ?_) nested
  rw [same.kind]
  split
  · exact classReference
  · exact classReference
  · exact .ite .rfl lateBound nested
  · exact nested

theorem middle : J.Many scope front given 0 (Parser.middle g) (Parser.middle h) :=
  .then_ (eat _) fun _ => .ite .rfl (pure rfl (fun _ => all_nil) rfl) <|
    .bind (expression inner) fun _ => .then_ (past _ _) fun _ =>
      pure rfl (fun known => by simp [known.2]) rfl

omit inner in
theorem binary_takes_up (op : String) : (binaryKind op).takesUp = true := by
  unfold binaryKind
  repeat' split
  all_goals rfl

section Operators

variable {left : Nat} (low : given → J.node scope 6 left)
include low

theorem ternary :
    J.One scope front given 1 6 (Parser.ternary g left) (Parser.ternary h left) := by
  refine .then_ skip fun _ => .bind (middle inner) fun middle => .bind (inner.expression _)
    fun right => wrap rfl (by decide) (fun known => low known.1.1) ?_ (by simp; omega)
  rintro ⟨⟨-, middle⟩, right⟩
  simp [middle.mono (Nat.zero_le 5), right.mono (Nat.zero_le 5)]

theorem joined (op : String) (power : Nat) : J.One scope front given 1 6
    (Parser.joined g op power left) (Parser.joined h op power left) :=
  .then_ skip fun _ => .bind (rightOperand inner op power) fun _ =>
    wrap (binary_takes_up op) (by decide) (fun known => low known.1)
      (fun known => by simp [known.2.mono (l := 5)]) rfl

/-- An operator takes up all that stands in front of it. -/
theorem operation (least : Nat) : J.Says scope front given 1 (Parser.operation g least left)
    (Parser.operation h least left) (.of (Leaves (J.node scope 6) (J.node scope 6)) fun _ => 1) := by
  have stays {front : Prop} : J.Says scope front given 1 (Pure.pure (.done left))
      (Pure.pure (.done left)) (.of (Leaves (J.node scope 6) (J.node scope 6)) fun _ => 1) :=
    pure rfl low rfl
  refine .current fun a b same _ _ => ?_
  rw [same.kind, (J.tokens_alike same).operator]
  refine .ite .rfl (.ite .rfl stays (goes (ternary inner low))) ?_
  split
  · exact stays
  · exact .ite .rfl stays (goes (joined inner low _ _))

end Operators

theorem binary (least : Nat) :
    J.One scope front given 0 6 (Parser.binary g least) (Parser.binary h least) :=
  .bind (unary inner) fun _ => repeatFrom (I := J.node scope 6) (N := fun _ => 1) And.right
    fun _ => operation inner And.right least

end Productions

end Says

end Judgement

end PhpAnalyser
