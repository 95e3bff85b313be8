import PhpAnalyser.Proofs.Replay.Primitive
/-!
Names, types and expressions, read again in another text: one lemma a production.
-/
namespace PhpAnalyser

/-- A token that seals the stretch is none of the others. -/
theorem TokenKind.ne_of_seal {kind o : TokenKind} (seals : kind.isSeal = true)
    (opened : o.isSeal = false) : kind ≠ o := by
  rintro rfl
  rw [seals] at opened
  cases opened

theorem unary_kind_other {sign : String} {kind : NodeKind} {power : Nat}
    (known : unaryKind? sign = some (kind, power)) : kind.isTypeDeclaration = false := by
  unfold unaryKind? at known
  (repeat' split at known) <;> cases known <;> rfl

theorem binary_kind_other (op : String) : (binaryKind op).isTypeDeclaration = false := by
  unfold binaryKind
  (repeat' split) <;> rfl

namespace Replays

variable {α : Type} {W : Overlap} {k : Bool} {s : ParserState}

theorem nameTail (written : String) :
    Replays W true true .inner (Parser.nameTail written) (Parser.nameTail written) s := by
  refine .repeatFrom rfl fun written s => .current <| .ite (fun _ => ?_) fun _ => ?_
  · refine .ite (fun word => ?_) fun _ => .unexpected
    exact .bind (.skip (.of_solid (solid_of_word word))) fun _ _ _ => .pure rfl
  · refine .ahead (fun _ => .ite (fun is => ?_) fun _ => .pure rfl) fun seals u v => ?_
    · simp only [Bool.and_eq_true, decide_eq_true_eq] at is
      exact .bind (.skip (.of_kind is.1 rfl)) fun _ _ _ => .pure rfl
    · simp only [TokenKind.ne_of_seal seals (o := .backslash) rfl, decide_false, Bool.false_and]
      exact .pure rfl

theorem nameHead : Replays W k true .inner Parser.nameHead Parser.nameHead s := by
  have skips (leads : s.Leads) (written : String) : Replays W k true .inner
      (do Parser.skip; return written) (do Parser.skip; return written) s :=
    .bind (.skip leads) fun _ _ _ => .pure rfl
  refine .current <| .ahead (fun _ => ?_) fun seals u v => ?_
  · refine .ite (fun is => ?_) fun _ => .ite (fun is => skips (.of_kind is rfl) _)
      fun _ => .ite (fun is => skips (.of_kind is rfl) _) fun _ => .unexpected
    simp only [Bool.and_eq_true, decide_eq_true_eq] at is
    exact skips (.of_word is.1) _
  · simp only [TokenKind.ne_of_seal seals (o := .keyword .namespace_) rfl,
      TokenKind.ne_of_seal seals (o := .backslash) rfl,
      TokenKind.ne_of_seal seals (o := .identifier) rfl, decide_false, Bool.false_and]
    exact .unexpected

theorem name : Replays W k true .inner Parser.name Parser.name s :=
  .current <| .bind nameHead fun _ _ _ => .bind (nameTail _) fun _ _ _ =>
    .bind (n := .resting) .spanFrom fun _ _ _ => .pure rfl

/-- What is read next may use the names in effect and the type around it. -/
theorem get [Renumber α] {k' : Bool} {m : Reach} {f f' : ParserState → Parser α}
    (next : ∀ t : ParserState, t.names = s.names → t.scope = s.scope →
      Replays W k k' m (f s) (f' t) s) :
    Replays W k k' m (MonadState.get >>= f) (MonadState.get >>= f') s := by
  intro a s' run clean
  obtain ⟨passage, ends, -⟩ := next s rfl rfl a s' run clean
  refine ⟨passage, ends, fun t beside enters leaves => ?_⟩
  exact (next t beside.names beside.scope a s' run clean).2.2 t beside enters leaves

theorem className : Replays W k true .inner Parser.className Parser.className s := by
  refine .bind name ?_
  rintro ⟨written, _⟩ s - 
  exact get fun t same _ => .pure (by rw [same]; rfl)

theorem classNames : Replays W true true .inner Parser.classNames Parser.classNames s :=
  .commaSeparated fun _ => className

theorem memberName : Replays W k true .inner Parser.memberName Parser.memberName s :=
  .current <| .ite (fun word => .advance (.of_solid (solid_of_word word))) fun _ => .unexpected

theorem typeAtom : Replays W true true .inner Parser.typeAtom Parser.typeAtom s := by
  refine .current ?_
  have skips (leads : s.Leads) (hint : String) : Replays W true true .inner
      (do Parser.skip; return hint) (do Parser.skip; return hint) s :=
    .bind (.skip leads) fun _ _ _ => .pure rfl
  split
  case h_1 kind | h_2 kind | h_3 kind => exact skips (.of_word kind) _
  case h_4 | h_5 | h_6 =>
    refine .bind name ?_
    rintro ⟨written, _⟩ s -
    exact .ite (fun _ => .pure rfl) fun _ => get fun t same _ => .pure (by rw [same]; rfl)
  case h_7 => exact .unexpected

theorem typeHint : Replays W true true .inner Parser.typeHint Parser.typeHint s :=
  .bind (.eat rfl) fun _ _ _ => .repeatFrom rfl fun _ _ => .bind typeAtom fun _ _ _ =>
    .bind .eatOperator fun _ _ _ => .ite (fun _ => .pure rfl) fun _ => .pure rfl

theorem returnType : Replays W true true .inner Parser.returnType Parser.returnType s :=
  .bind (.eat rfl) fun _ _ _ => .ite (fun _ => typeHint.discarded) fun _ => .pure rfl

end Replays

structure Tracks (W : Overlap) (g g' : Nested) : Prop where
  expression : ∀ k power s,
    Replays W k true .inner (g.expression power) (g'.expression power) s
  statement : ∀ k s, Replays W k k .closing g.statement g'.statement s

namespace Replays

variable {W : Overlap} {k : Bool} {s : ParserState} {g g' : Nested} (tracks : Tracks W g g')
include tracks

theorem expression : Replays W k true .inner (Parser.expression g) (Parser.expression g') s :=
  tracks.expression k 0 s

theorem expressions : Replays W true true .inner (Parser.expressions g) (Parser.expressions g') s :=
  .commaSeparated fun _ => expression tracks

theorem condition : Replays W k true .inner (Parser.condition g) (Parser.condition g') s :=
  .parens opens_expect.discard (fun _ => expression tracks) fun _ _ _ => .pure rfl

theorem braced : Replays W true true .inner (Parser.braced g) (Parser.braced g') s :=
  .bind (expression tracks) fun _ _ _ => .bind (.discarded (.expect rfl)) fun _ _ _ => .pure rfl

theorem statements (stop : Token → Bool) :
    Replays W k k .inner (Parser.statements g stop) (Parser.statements g' stop) s :=
  .recovering fun s => .then_ (tracks.statement _ s) fun id _ _ => .pure (by cases id <;> rfl)

theorem block : Replays W k true .closing (Parser.block g) (Parser.block g') s :=
  .bind (.expect rfl) fun _ _ _ => .bind (statements tracks _) fun _ _ _ =>
    .then_ (.discarded (.expect_seal rfl rfl)) fun _ _ _ => .finish rfl rfl

omit tracks in
theorem promotes_leads : Succeeds Parser.promotes s fun b s' => s' = s ∧ (b = true → s.Leads) := by
  refine .current ?_
  split
  case h_1 kind | h_2 kind | h_3 kind => exact .pure ⟨rfl, fun _ => .of_word kind⟩
  case h_4 kind => exact .ahead (.pure ⟨rfl, fun _ => .of_kind kind rfl⟩)
  case h_5 => exact .pure ⟨rfl, nofun⟩

omit tracks in
theorem promotes : Replays W k k .inner Parser.promotes Parser.promotes s := by
  refine .current ?_
  split
  case h_1 | h_2 | h_3 => exact .pure rfl
  case h_4 kind =>
    exact .ahead (fun _ => .pure rfl) fun seals => absurd kind (TokenKind.ne_of_seal seals rfl)
  case h_5 => exact .pure rfl

omit tracks in
theorem promotions : Replays W true true .inner Parser.promotions Parser.promotions s := by
  refine .repeatFrom rfl fun _ s => .bind promotes fun b s' run => ?_
  obtain ⟨rfl, leads⟩ := promotes_leads b s' run
  exact .ite (fun is => .bind (.skip (leads is)) fun _ _ _ => .pure rfl) fun _ => .pure rfl

omit tracks in
theorem parameterHint : Replays W true true .inner Parser.parameterHint Parser.parameterHint s :=
  .current <| .ite (fun _ => .pure rfl) fun _ => .map typeHint fun _ => rfl

theorem formalParameter :
    Replays W true true .inner (Parser.formalParameter g) (Parser.formalParameter g') s :=
  .current <| .bind promotions fun _ _ _ => .bind parameterHint fun _ _ _ =>
    .bind .eatOperator fun _ _ _ => .bind (.eat rfl) fun _ _ _ => .bind (.expect rfl) fun _ _ _ =>
      .bind .eatOperator fun _ _ _ => .bind (.onlyIf fun _ => expression tracks) fun _ _ _ =>
        .finish rfl rfl

theorem formalParameters :
    Replays W k true .inner (Parser.formalParameters g) (Parser.formalParameters g') s :=
  .parens opens_expect (fun _ => .commaList fun _ => formalParameter tracks) fun _ _ _ =>
    .finish rfl rfl

omit tracks in
theorem argumentName : Replays W true true .inner Parser.argumentName Parser.argumentName s := by
  refine .current <| .ahead (fun _ => .ite (fun is => ?_) fun _ => .pure rfl) fun seals u v => ?_
  · simp only [Bool.and_eq_true, decide_eq_true_eq] at is
    have word := ParserState.Leads.of_solid (solid_of_word is.1)
    refine .bind (.skip word) fun _ s' run => ?_
    cases run
    exact .skip (.of_kind (peek_one word.more ▸ is.2) rfl)
  · have apart : Parser.isWord s.token.kind = false := by
      revert seals
      cases s.token.kind <;> first | exact fun _ => rfl | exact nofun
    simp only [apart, Bool.false_and]
    exact .pure rfl

theorem argument : Replays W true true .inner (Parser.argument g) (Parser.argument g') s :=
  .bind (.discarded (.eat rfl)) fun _ _ _ => .bind (.discarded .eatOperator) fun _ _ _ =>
    .bind argumentName fun _ _ _ => expression tracks

theorem arguments : Replays W k true .inner (Parser.arguments g) (Parser.arguments g') s := by
  refine .parens (n := .inner) opens_expect (fun _ => .repeatFrom rfl fun values s => ?_)
    fun _ _ _ => .finish rfl rfl
  have more {s : ParserState} : Replays W true true .inner
      (do
        let values := values ++ [← Parser.argument g]
        if ← Parser.eat .comma then return ForInStep.yield values
        else return ForInStep.done values)
      (do
        let values := W.shift values ++ [← Parser.argument g']
        if ← Parser.eat .comma then return ForInStep.yield values
        else return ForInStep.done values) s := by
    refine .bind (argument tracks) fun value _ _ => .bind (.eat rfl) fun _ _ _ =>
      .ite (fun _ => ?_) fun _ => ?_
    · exact .pure (congrArg ForInStep.yield (Renumber.shift_snoc _ values value))
    · exact .pure (congrArg ForInStep.done (Renumber.shift_snoc _ values value))
  refine .check <| .ite (fun _ => .pure rfl) fun _ => .check <|
    .ahead (fun _ => .ite (fun is => ?_) fun _ => more) fun seals u v => ?_
  · simp only [Bool.and_eq_true, decide_eq_true_eq] at is
    exact .bind (.skip (.of_kind is.1 rfl)) fun _ _ _ => .pure rfl
  · simp only [TokenKind.ne_of_seal seals (o := .ellipsis) rfl, decide_false, Bool.false_and]
    exact more

theorem variableWithin (fuel fuel' : Nat) (enough : W.Roomy → fuel ≤ fuel') :
    Replays W k true .inner (Parser.variableWithin g fuel) (Parser.variableWithin g' fuel') s := by
  induction fuel generalizing k fuel' s with
  | zero => exact .stuck
  | succ fuel ih =>
    have going {fuel' : Nat} (enough : W.Roomy → fuel ≤ fuel') : Replays W k true .inner
        (Parser.variableWithin g (fuel + 1)) (Parser.variableWithin g' (fuel' + 1)) s := by
      refine .current <| .ite (fun is => ?_) fun _ => ?_
      · exact .bind (.skip (.of_kind is rfl)) fun _ _ _ => .push rfl rfl
      · exact .bind (.discarded (.expect rfl)) fun _ _ _ => .bind (.eat rfl) fun _ _ _ =>
          .bind (n := .inner) (l := true)
            (.ite (fun _ => braced tracks) fun _ => ih fuel' enough) fun _ _ _ => .finish rfl rfl
    cases fuel' with
    | zero => exact (going fun _ => Nat.le_refl _).stuck_beside fun roomy => nomatch enough roomy
    | succ fuel' => exact going fun roomy => Nat.le_of_succ_le_succ (enough roomy)

theorem variableExpression :
    Replays W k true .inner (Parser.variableExpression g) (Parser.variableExpression g') s :=
  .remaining fun _ _ enough => variableWithin tracks _ _ enough

omit tracks in
theorem nameExpression :
    Replays W k true .inner Parser.nameExpression Parser.nameExpression s := by
  refine .bind name ?_
  rintro ⟨written, span⟩ s -
  refine get fun t same _ => .current ?_
  dsimp only
  rw [same]
  refine .push rfl ?_
  split <;> rfl

omit tracks in
theorem classReference :
    Replays W k true .inner Parser.classReference Parser.classReference s := by
  refine .bind name ?_
  rintro ⟨written, span⟩ s -
  refine get fun t same _ => ?_
  dsimp only
  rw [same]
  exact .push rfl rfl

theorem parenthesized :
    Replays W k true .inner (Parser.parenthesized g) (Parser.parenthesized g') s :=
  .current <| .bind (condition tracks) fun _ _ _ => .finish rfl rfl

theorem callOperands :
    Replays W k true .inner (Parser.callOperands g) (Parser.callOperands g') s :=
  .parens opens_expect.discard (fun _ => .commaList fun _ => expression tracks) fun _ _ _ => .pure rfl

theorem arrayElement : Replays W true true .inner (Parser.arrayElement g) (Parser.arrayElement g') s := by
  refine .current <| .bind (.discarded (.eat rfl)) fun _ _ _ => .bind .eatOperator fun byRef _ _ =>
    .bind (expression tracks) fun first _ _ => .bind (n := .inner) (l := true) ?_ fun isKey _ _ => ?_
  · exact .ite (fun _ => .pure rfl) fun _ => .eat rfl
  · refine .ite (fun _ => ?_) fun _ => .finish rfl rfl
    exact .bind .eatOperator fun _ _ _ => .bind (expression tracks) fun _ _ _ => .finish rfl rfl

theorem arrayElements (close : TokenKind) :
    Replays W true true .inner (Parser.arrayElements g close) (Parser.arrayElements g' close) s := by
  refine .repeatFrom rfl fun elements s => .check <| .ite (fun _ => .pure rfl) fun _ =>
    .bind (.eat rfl) fun _ _ _ => .ite (fun _ => .pure rfl) fun _ => ?_
  refine .bind (arrayElement tracks) fun element _ _ => .bind (.eat rfl) fun _ _ _ =>
    .ite (fun _ => ?_) fun _ => ?_
  · exact .pure (congrArg ForInStep.yield (Renumber.shift_snoc _ elements element))
  · exact .pure (congrArg ForInStep.done (Renumber.shift_snoc _ elements element))

theorem shortArray (start : Span) :
    Replays W k true .inner (Parser.shortArray g start) (Parser.shortArray g' start) s :=
  .bind (.discarded (.expect rfl)) fun _ _ _ => .bind (arrayElements tracks _) fun _ _ _ =>
    .bind (.discarded (.expect rfl)) fun _ _ _ => .finish rfl rfl

theorem longArray (start : Span) :
    Replays W k true .inner (Parser.longArray g start) (Parser.longArray g' start) s :=
  .parens opens_expect.discard (fun _ => arrayElements tracks _) fun _ _ _ => .finish rfl rfl

theorem closureUses (leads : s.Leads) :
    Replays W k true .inner (Parser.closureUses g) (Parser.closureUses g') s :=
  .bind (.advance leads) fun _ _ _ => .parens opens_expect.discard
    (fun _ => .commaList fun _ => .bind (.discarded .eatOperator) fun _ _ _ =>
      variableExpression tracks) fun _ _ _ => .finish rfl rfl

theorem closure (start : Span) (isStatic : Bool) :
    Replays W k true .inner (Parser.closure g start isStatic) (Parser.closure g' start isStatic) s := by
  refine .bind (.discarded (.expect rfl)) fun _ _ _ => .bind .eatOperator fun _ _ _ =>
    .bind (formalParameters tracks) fun parameters _ _ => .check <|
      .bind (.onlyIf fun is => closureUses tracks (.of_word (of_decide_eq_true is))) fun captured _ _ =>
        .bind returnType fun _ _ _ => .bind (block tracks) fun body _ _ => .finish ?_ rfl
  exact Renumber.shift_snoc _ (parameters :: captured) body

theorem arrowFunction (start : Span) (isStatic : Bool)
    (first : Replays W k true .inner Parser.skip Parser.skip s) :
    Replays W k true .inner (Parser.arrowFunction g start isStatic)
      (Parser.arrowFunction g' start isStatic) s :=
  .bind first fun _ _ _ => .bind .eatOperator fun _ _ _ =>
    .bind (formalParameters tracks) fun _ _ _ => .bind returnType fun _ _ _ =>
      .bind (.discarded (.expect rfl)) fun _ _ _ => .bind (tracks.expression _ _ _) fun _ _ _ =>
        .finish rfl rfl

omit tracks in
/-- What a late-bound keyword stands for depends on the scope alone. -/
theorem lateBound (leads : s.Leads) :
    Replays W k true .inner Parser.lateBound Parser.lateBound s := by
  refine .advancing leads <| get fun t _ same => ?_
  rw [same]
  split
  · exact .push rfl rfl
  · exact .throw

omit tracks in
theorem literal (kind : LiteralKind) (leads : s.Leads) :
    Replays W k true .inner (Parser.literal kind) (Parser.literal kind) s :=
  .bind (.advance leads) fun _ _ _ => .push rfl rfl

theorem exitOperands :
    Replays W true true .inner (Parser.exitOperands g) (Parser.exitOperands g') s :=
  .check <| .ite (fun _ => callOperands tracks) fun _ => .pure rfl

theorem keywordPrimary {word : Keyword} (start : Span) (is : s.token.kind = .keyword word) :
    Replays W k true .inner (Parser.keywordPrimary g word start)
      (Parser.keywordPrimary g' word start) s := by
  have leads := ParserState.Leads.of_word is
  refine .ahead (fun _ => ?_) fun seals => absurd is (TokenKind.ne_of_seal seals rfl)
  have called (kind : NodeKind) (other : kind.isTypeDeclaration = false) : Replays W k true .inner
      (do Parser.skip; Parser.finish kind start (← Parser.callOperands g))
      (do Parser.skip; Parser.finish kind start (← Parser.callOperands g')) s :=
    .bind (.skip leads) fun _ _ _ => .bind (callOperands tracks) fun _ _ _ => .finish rfl other
  have exits : Replays W k true .inner
      (do Parser.skip; Parser.finish .exit start (← Parser.exitOperands g))
      (do Parser.skip; Parser.finish .exit start (← Parser.exitOperands g')) s :=
    .bind (.skip leads) fun _ _ _ => .bind (exitOperands tracks) fun _ _ _ => .finish rfl rfl
  cases word with
  | namespace_ => exact .ite (fun _ => nameExpression) fun _ => .unexpected
  | static_ =>
    refine .ite (fun _ => .skipping leads (closure tracks _ _)) fun _ =>
      .ite (fun arrow => .skipping leads ?_) fun _ => lateBound leads
    rw [peek_one leads.more] at arrow
    exact arrowFunction tracks _ _ (.skip_any (.arrow arrow))
  | self_ => exact lateBound leads
  | parent_ => exact lateBound leads
  | function_ => exact closure tracks start _
  | array_ =>
    exact .ite (fun _ => .bind (.skip leads) fun _ _ _ => longArray tracks start) fun _ => .unexpected
  | isset_ => exact called _ rfl
  | empty_ => exact called _ rfl
  | exit_ => exact exits
  | die_ => exact exits
  | _ => exact .unexpected

theorem primary : Replays W k true .inner (Parser.primary g) (Parser.primary g') s := by
  refine .current ?_
  cases kind : s.token.kind with
  | «variable» => exact variableExpression tracks
  | dollar => exact variableExpression tracks
  | integer => exact literal _ (.of_kind kind rfl)
  | float => exact literal _ (.of_kind kind rfl)
  | string => exact literal _ (.of_kind kind rfl)
  | identifier =>
    exact .ahead (fun _ => .ite (fun _ => arrowFunction tracks _ _ (.skip (.of_kind kind rfl))) fun _ =>
      nameExpression) fun seals => absurd kind (TokenKind.ne_of_seal seals rfl)
  | backslash => exact nameExpression
  | leftBracket => exact shortArray tracks _
  | leftParen => exact parenthesized tracks
  | keyword word => exact keywordPrimary tracks _ kind
  | _ => exact .unexpected

theorem arrayIndex (base : Nat) (leads : s.Leads) :
    Replays W k true .inner (Parser.arrayIndex g base) (Parser.arrayIndex g' (W.shift base)) s :=
  .bind (.skip leads) fun _ _ _ => .check <| .bind (.onlyIf fun _ => expression tracks) fun _ _ _ =>
    .bind (.discarded (.expect rfl)) fun _ _ _ => .wrap rfl rfl

theorem stringIndex (base : Nat) (leads : s.Leads) :
    Replays W k true .inner (Parser.stringIndex g base) (Parser.stringIndex g' (W.shift base)) s :=
  .bind (.skip leads) fun _ _ _ => .bind (braced tracks) fun _ _ _ => .wrap rfl rfl

omit tracks in
theorem memberWord : Replays W k true .inner Parser.memberWord Parser.memberWord s :=
  .check <| .ite (fun is => .advance (.of_kind (of_decide_eq_true is) rfl)) fun _ => memberName

theorem memberTarget :
    Replays W true true .inner (Parser.memberTarget g) (Parser.memberTarget g') s :=
  .bind (.eat rfl) fun _ _ _ => .ite
    (fun _ => .bind (.discarded (braced tracks)) fun _ _ _ => .pure rfl) fun _ => .bind memberWord fun _ _ _ => .pure rfl

theorem selectedMember (isStatic : Bool) :
    Replays W true true .inner (Parser.selectedMember g isStatic)
      (Parser.selectedMember g' isStatic) s := by
  refine .current <| .bind (memberTarget tracks) ?_
  rintro ⟨name, isVariable⟩ s -
  exact .check <| .ite (fun _ => .bind (arguments tracks) fun _ _ _ => .finish rfl rfl) fun _ =>
    .ite (fun _ => .finish rfl rfl) fun _ => .finish rfl rfl

theorem memberAccess (isStatic : Bool) (base : Nat) (leads : s.Leads) :
    Replays W k true .inner (Parser.memberAccess g isStatic base)
      (Parser.memberAccess g' isStatic (W.shift base)) s :=
  .bind (.skip leads) fun _ _ _ => .bind (selectedMember tracks isStatic) fun _ _ _ => .wrap rfl rfl

theorem functionCall (base : Nat) :
    Replays W k true .inner (Parser.functionCall g base) (Parser.functionCall g' (W.shift base)) s :=
  .bind (arguments tracks) fun _ _ _ => .wrap rfl rfl

omit tracks in
theorem postfixed (kind : NodeKind) (base : Nat) (leads : s.Leads)
    (other : kind.isTypeDeclaration = false) :
    Replays W k true .inner (Parser.postfixed kind base) (Parser.postfixed kind (W.shift base)) s :=
  .bind (.skip leads) fun _ _ _ => .wrap rfl other

theorem chainLink (base : Nat) :
    Replays W true true .inner (Parser.chainLink g base) (Parser.chainLink g' (W.shift base)) s := by
  have goes {p q : Parser Nat} (replays : Replays W true true .inner p q s) :
      Replays W true true .inner (do return ForInStep.yield (← p))
        (do return ForInStep.yield (← q)) s := .bind replays fun _ _ _ => .pure rfl
  have ends {p q : Parser Nat} (replays : Replays W true true .inner p q s) :
      Replays W true true .inner (do return ForInStep.done (← p))
        (do return ForInStep.done (← q)) s := .bind replays fun _ _ _ => .pure rfl
  refine .current ?_
  cases kind : s.token.kind with
  | leftBracket => exact goes (arrayIndex tracks base (.of_kind kind rfl))
  | leftBrace =>
    exact .kindOf fun _ => .ite (fun _ => goes (stringIndex tracks base (.of_kind kind rfl)))
      fun _ => .pure rfl
  | arrow => exact goes (memberAccess tracks _ base (.of_kind kind rfl))
  | doubleColon => exact goes (memberAccess tracks _ base (.of_kind kind rfl))
  | leftParen => exact goes (functionCall tracks base)
  | operator =>
    have leads := ParserState.Leads.of_kind kind rfl
    exact .ite (fun _ => ends (postfixed _ base leads rfl)) fun _ =>
      .ite (fun _ => ends (postfixed _ base leads rfl)) fun _ => .pure rfl
  | _ => exact .pure rfl

theorem chain (base : Nat) :
    Replays W true true .inner (Parser.chain g base) (Parser.chain g' (W.shift base)) s :=
  .repeatFrom rfl fun base _ => chainLink tracks base

omit tracks in
theorem propertyWord : Replays W true true .inner Parser.propertyWord Parser.propertyWord s :=
  .bind memberWord fun _ _ _ => .push rfl rfl

omit tracks in
theorem classProperty (isStatic : Bool) (base : Nat) (leads : s.Leads) :
    Replays W true true .inner (Parser.classProperty isStatic base)
      (Parser.classProperty isStatic (W.shift base)) s :=
  .bind (.skip leads) fun _ _ _ => .bind propertyWord fun _ _ _ => .wrap rfl rfl

theorem classLink (base : Nat) :
    Replays W true true .inner (Parser.classLink g base) (Parser.classLink g' (W.shift base)) s := by
  refine .current <| .ite (fun is => ?_) fun _ => .ite (fun is => ?_) fun _ =>
    .ahead (fun _ => .ite (fun is => ?_) fun _ => .pure rfl) fun seals u v => ?_
  · exact .bind (arrayIndex tracks base (.of_kind is rfl)) fun _ _ _ => .pure rfl
  · exact .bind (classProperty _ base (.of_kind is rfl)) fun _ _ _ => .pure rfl
  · simp only [Bool.and_eq_true, decide_eq_true_eq] at is
    exact .bind (classProperty _ base (.of_kind is.1 rfl)) fun _ _ _ => .pure rfl
  · simp only [TokenKind.ne_of_seal seals (o := .doubleColon) rfl, decide_false, Bool.false_and]
    exact .pure rfl

theorem dynamicClass :
    Replays W true true .inner (Parser.dynamicClass g) (Parser.dynamicClass g') s :=
  .bind (variableExpression tracks) fun _ _ _ => .repeatFrom rfl fun base _ => classLink tracks base

theorem newTarget : Replays W true true .inner (Parser.newTarget g) (Parser.newTarget g') s := by
  refine .current ?_
  split
  case h_1 | h_2 | h_3 => exact classReference
  case h_4 | h_5 => exact dynamicClass tracks
  case h_6 => exact parenthesized tracks
  case h_7 word kind => exact .ite (fun _ => lateBound (.of_word kind)) fun _ => .unexpected
  case h_8 => exact .unexpected

theorem allocation (leads : s.Leads) :
    Replays W k true .inner (Parser.allocation g) (Parser.allocation g') s :=
  .bind (.advance leads) fun _ _ _ => .bind (newTarget tracks) fun _ _ _ => .check <|
    .bind (.onlyIf fun _ => arguments tracks) fun _ _ _ => .finish rfl rfl

theorem assignment (target : Nat) (leads : s.Leads) :
    Replays W true true .inner (Parser.assignment g target)
      (Parser.assignment g' (W.shift target)) s :=
  .bind (.advance leads) fun _ _ _ => .bind (n := .inner) (l := true)
    (.ite (fun _ => .eatOperator) fun _ => .pure rfl) fun _ _ _ =>
      .bind (tracks.expression _ _ _) fun _ _ _ => .wrap rfl rfl

theorem assignable : Replays W k true .inner (Parser.assignable g) (Parser.assignable g') s := by
  refine .bind (primary tracks) fun base _ _ => .bind (chain tracks base) fun target s _ =>
    .current <| .kindOf fun kind => .ite (fun is => ?_) fun _ => .pure rfl
  simp only [Bool.and_eq_true, decide_eq_true_eq] at is
  exact assignment tracks target (.of_kind is.1.1 rfl)

theorem prefixed (kind : NodeKind) (power : Nat) (leads : s.Leads)
    (other : kind.isTypeDeclaration = false) :
    Replays W k true .inner (Parser.prefixed g kind power) (Parser.prefixed g' kind power) s :=
  .bind (.advance leads) fun _ _ _ => .bind (tracks.expression _ _ _) fun _ _ _ => .finish rfl other

theorem unary : Replays W k true .inner (Parser.unary g) (Parser.unary g') s := by
  refine .current ?_
  split
  case h_1 kind =>
    split
    case h_1 sign power known => exact prefixed tracks _ _ (.of_kind kind rfl) (unary_kind_other known)
    case h_2 => exact .unexpected
  case h_2 kind => exact prefixed tracks _ _ (.of_kind kind rfl) rfl
  case h_3 kind =>
    exact .bind (allocation tracks (.of_word kind)) fun base _ _ => chain tracks base
  case h_4 kind | h_5 kind | h_6 kind | h_7 kind | h_8 kind | h_9 kind =>
    exact prefixed tracks _ _ (.of_word kind) rfl
  case h_10 => exact assignable tracks

theorem testedType (power : Nat) :
    Replays W true true .inner (Parser.testedType g power) (Parser.testedType g' power) s := by
  refine .current ?_
  split
  case h_1 | h_2 => exact classReference
  case h_3 kind =>
    exact .ite (fun _ => lateBound (.of_word kind)) fun _ => tracks.expression _ power _
  case h_4 => exact tracks.expression _ power _

theorem middle : Replays W true true .inner (Parser.middle g) (Parser.middle g') s :=
  .bind (.eat rfl) fun _ _ _ => .ite (fun _ => .pure rfl) fun _ =>
    .bind (expression tracks) fun _ _ _ => .bind (.discarded (.expect rfl)) fun _ _ _ => .pure rfl

theorem ternary (left : Nat) (leads : s.Leads) :
    Replays W true true .inner (Parser.ternary g left) (Parser.ternary g' (W.shift left)) s :=
  .bind (.skip leads) fun _ _ _ => .bind (middle tracks) fun middle _ _ =>
    .bind (tracks.expression _ _ _) fun right _ _ => .wrap (Renumber.shift_snoc _ middle right) rfl

theorem rightOperand (op : String) (power : Nat) :
    Replays W true true .inner (Parser.rightOperand g op power) (Parser.rightOperand g' op power) s :=
  .ite (fun _ => testedType tracks power) fun _ => tracks.expression _ power _

theorem joined (op : String) (power left : Nat) (leads : s.Leads) :
    Replays W true true .inner (Parser.joined g op power left)
      (Parser.joined g' op power (W.shift left)) s :=
  .bind (.skip leads) fun _ _ _ => .bind (rightOperand tracks op power) fun _ _ _ =>
    .wrap rfl (binary_kind_other op)

omit tracks in
theorem leads_of_operator {op : String} (known : s.token.operator? = some op) : s.Leads := by
  refine .of_solid ?_
  unfold Token.operator? at known
  split at known
  case h_1 kind => rw [kind]; rfl
  case h_2 kind => rw [kind]; rfl
  case h_3 => cases known

theorem operation (least left : Nat) :
    Replays W true true .inner (Parser.operation g least left)
      (Parser.operation g' least (W.shift left)) s := by
  refine .current <| .ite (fun is => ?_) fun _ => ?_
  · exact .ite (fun _ => .pure rfl) fun _ =>
      .bind (ternary tracks left (.of_kind is rfl)) fun _ _ _ => .pure rfl
  · split
    · exact .pure rfl
    next op power known =>
      obtain ⟨op', operator, -⟩ := Option.bind_eq_some_iff.mp known
      exact .ite (fun _ => .pure rfl) fun _ =>
        .bind (joined tracks _ _ left (leads_of_operator operator)) fun _ _ _ => .pure rfl

theorem binary (least : Nat) :
    Replays W k true .inner (Parser.binary g least) (Parser.binary g' least) s :=
  .bind (unary tracks) fun _ _ _ => .repeatFrom rfl fun left _ => operation tracks least left

end Replays

end PhpAnalyser
