import PhpAnalyser.Proofs.Replay.Expression
/-!
Members, types and functions, read again in another text. A type that is made has its members in a
row.
-/
namespace PhpAnalyser

namespace Replays

variable {α : Type} {W : Overlap} {k : Bool} {s : ParserState} {g g' : Nested} (tracks : Tracks W g g')
include tracks

omit tracks in
theorem declaredName (expected : String) :
    Replays W k true .inner (Parser.declaredName expected) (Parser.declaredName expected) s :=
  .bind (.expect rfl) fun _ _ _ => get fun _ same _ => .pure (by rw [same]; rfl)

omit tracks in
theorem leads_of_keyword {word : Keyword} (known : s.token.kind.keyword? = some word) : s.Leads := by
  refine .of_solid ?_
  revert known
  cases s.token.kind <;> first | exact fun _ => rfl | exact nofun

omit tracks in
theorem memberModifiers :
    Replays W true true .inner Parser.memberModifiers Parser.memberModifiers s := by
  refine .repeatFrom rfl fun modifiers s => .current ?_
  rw [show W.shift modifiers = modifiers from rfl]
  split
  next known =>
    obtain ⟨word, keyword, -⟩ := Option.bind_eq_some_iff.mp known
    exact .skipping (leads_of_keyword keyword) (.pure rfl)
  next => exact .pure rfl

theorem method (start : Span) (modifiers : Modifiers) (leads : s.Leads) :
    Replays W k true .inner (Parser.method g start modifiers) (Parser.method g' start modifiers) s ∧
      Moves (Parser.method g start modifiers) s :=
  skipping_moves leads <| .bind .eatOperator fun _ _ _ => .bind memberName fun _ _ _ =>
    .bind (formalParameters tracks) fun _ _ _ => .bind returnType fun _ _ _ =>
      .bind (.eat rfl) fun _ _ _ => .bind (.onlyIf fun _ => (block tracks).inner) fun _ _ _ =>
        .finish rfl rfl

theorem property : Replays W true true .inner (Parser.property g) (Parser.property g') s :=
  .bind (.expect rfl) fun _ _ _ => .bind .eatOperator fun _ _ _ =>
    .bind (.onlyIf fun _ => expression tracks) fun _ _ _ => .finish rfl rfl

omit tracks in
theorem propertyHint : Replays W true true .inner Parser.propertyHint Parser.propertyHint s :=
  .check <| .ite (fun _ => .pure rfl) fun _ => typeHint.discarded

theorem propertyDeclaration (start : Span) (modifiers : Modifiers) :
    Replays W true true .closing (Parser.propertyDeclaration g start modifiers)
      (Parser.propertyDeclaration g' start modifiers) s :=
  .bind propertyHint fun _ _ _ => .bind (.commaSeparated fun _ => property tracks) fun _ _ _ =>
    .pushStatement rfl rfl

theorem constantDeclarator :
    Replays W true true .inner (Parser.constantDeclarator g) (Parser.constantDeclarator g') s :=
  .bind memberName fun _ _ _ => .bind .expectOperator fun _ _ _ =>
    .bind (expression tracks) fun _ _ _ => .finish rfl rfl

theorem constantDeclaration (leads : s.Leads) :
    Replays W k true .closing (Parser.constantDeclaration g) (Parser.constantDeclaration g') s :=
  .advancing leads <| .bind (.commaSeparated fun _ => constantDeclarator tracks) fun _ _ _ =>
    .pushStatement rfl rfl

omit tracks in
/-- No name starts with a token that seals. -/
theorem name_fails (seals : s.token.kind.isSeal = true) :
    Succeeds Parser.className s fun _ _ => False := by
  have head : Succeeds Parser.nameHead s fun _ _ => False := by
    refine .current <| .ahead ?_
    simp only [TokenKind.ne_of_seal seals (o := .keyword .namespace_) rfl,
      TokenKind.ne_of_seal seals (o := .backslash) rfl,
      TokenKind.ne_of_seal seals (o := .identifier) rfl, decide_false, Bool.false_and]
    exact .unexpected
  refine .bind (R := fun _ _ => False) ?_ fun _ _ no => no.elim
  exact .current <| .bind head fun _ _ no => no.elim

omit tracks in
theorem ruleMethod : Replays W true true .inner Parser.ruleMethod Parser.ruleMethod s := by
  refine .ahead (fun _ => .check <| .ite (fun _ => ?_) fun _ => ?_) fun seals u v => ?_
  · exact .bind className fun _ _ _ => .bind (.discarded (.expect rfl)) fun _ _ _ =>
      .bind memberName fun _ _ _ => .pure rfl
  · exact .bind memberName fun _ _ _ => .pure rfl
  · refine .fails fun a s' run => ?_
    have word : Parser.isWord s.token.kind = false := by
      revert seals
      cases s.token.kind <;> first | exact fun _ => rfl | exact nofun
    have member : Succeeds Parser.memberName s fun _ _ => False :=
      .current <| .ite (fun is => by rw [word] at is; cases is) fun _ => .unexpected
    refine Succeeds.check (Q := fun _ _ => False) (.ite (fun _ => ?_) fun _ => ?_) a s' run
    · exact .bind (name_fails seals) fun _ _ no => no.elim
    · exact .bind member fun _ _ no => no.elim

omit tracks in
theorem ruleVisibility : Replays W true true .inner Parser.ruleVisibility Parser.ruleVisibility s := by
  refine .current ?_
  split
  next visibility known =>
    refine .skipping (.of_solid ?_) (.pure rfl)
    unfold Parser.visibilityWord at known
    split at known
    case h_1 kind | h_2 kind | h_3 kind => rw [kind]; rfl
    case h_4 => cases known
  next => exact .pure rfl

omit tracks in
theorem ruleAlias : Replays W true true .inner Parser.ruleAlias Parser.ruleAlias s :=
  .current <| .ite (fun _ => .pure rfl) fun _ => .bind memberName fun _ _ _ => .pure rfl

omit tracks in
theorem renameRule : Replays W true true .inner Parser.renameRule Parser.renameRule s :=
  .bind ruleVisibility fun _ _ _ => .bind ruleAlias fun _ _ _ =>
    .ite (fun _ => .unexpected) fun _ => .pure rfl

omit tracks in
theorem ruleAction : Replays W true true .inner Parser.ruleAction Parser.ruleAction s :=
  .bind (.eat rfl) fun _ _ _ => .ite (fun _ => .bind classNames fun _ _ _ => .pure rfl) fun _ =>
    .bind (.eat rfl) fun _ _ _ => .ite (fun _ => renameRule) fun _ => .unexpected

omit tracks in
theorem traitAdaptation :
    Replays W true true .closing Parser.traitAdaptation Parser.traitAdaptation s := by
  refine .current <| .bind ruleMethod ?_
  rintro ⟨traitName, method⟩ s -
  exact .bind ruleAction fun _ _ _ => .pushStatement rfl rfl

omit tracks in
theorem traitRules (start : Span) :
    Replays W true true .inner (Parser.traitRules start) (Parser.traitRules start) s := by
  refine .bind (.eat rfl) fun _ _ _ => .ite (fun _ => ?_) fun _ => ?_
  · refine .repeatFrom rfl fun rules s => .bind (.eat rfl) fun _ _ _ =>
      .ite (fun _ => .pure rfl) fun _ => ?_
    exact .bind traitAdaptation fun rule _ _ =>
      .pure (congrArg ForInStep.yield (Renumber.shift_snoc _ rules rule))
  · exact .bind (.discarded .finishStatement) fun _ _ _ => .pure rfl

omit tracks in
theorem traitUse (leads : s.Leads) :
    Replays W true true .inner Parser.traitUse Parser.traitUse s ∧ Moves Parser.traitUse s :=
  advancing_moves leads <| .bind classNames fun _ _ _ => .bind (traitRules _) fun _ _ _ =>
    .finish rfl rfl

theorem modified (stateful : Bool) (start : Span) (modifiers : Modifiers) :
    Replays W true true .inner (Parser.modified g stateful start modifiers)
      (Parser.modified g' stateful start modifiers) s :=
  .current <| .ite (fun is => (constantDeclaration tracks (.of_word is)).inner) fun _ =>
    .ite (fun is => (method tracks _ _ (.of_word is)).1) fun _ =>
      .ite (fun _ => (propertyDeclaration tracks _ _).inner) fun _ => .unexpected

theorem member (stateful : Bool) :
    Replays W true true .inner (Parser.member g stateful) (Parser.member g' stateful) s := by
  refine .check <| .ite (fun is => ?_) fun _ => .current <| .bind memberModifiers fun _ _ _ =>
    .bind (modified tracks stateful _ _) fun _ _ _ =>
      .bind (n := .resting) .setDocComment fun _ _ _ => .pure rfl
  simp only [Bool.and_eq_true, decide_eq_true_eq] at is
  exact (traitUse (.of_word is.2)).1

theorem members (stateful : Bool) :
    Replays W true true .closing (Parser.members g stateful) (Parser.members g' stateful) s :=
  .bind (.discarded (.expect rfl)) fun _ _ _ =>
    .bind (.recovering fun _ => .bind (m := .inner) (member tracks stateful) fun _ _ _ => .pure rfl)
      fun _ _ _ => .then_ (.discarded (.expect_seal rfl rfl)) fun _ _ _ => .pure rfl

omit tracks in
theorem classModifiers : Replays W k k .inner Parser.classModifiers Parser.classModifiers s :=
  .repeatFrom rfl fun _ _ => .bind (.eat rfl) fun _ _ _ => .ite (fun _ => .pure rfl) fun _ =>
    .bind (.eat rfl) fun _ _ _ => .ite (fun _ => .pure rfl) fun _ => .pure rfl

omit tracks in
theorem parentClass : Replays W true true .inner Parser.parentClass Parser.parentClass s :=
  .bind (.eat rfl) fun _ _ _ => .ite (fun _ => .map className fun _ => rfl) fun _ => .pure rfl

omit tracks in
theorem typesBehind (word : Keyword) :
    Replays W true true .inner (Parser.typesBehind word) (Parser.typesBehind word) s :=
  .bind (.eat rfl) fun _ _ _ => .ite (fun _ => classNames) fun _ => .pure rfl

theorem functionBody :
    Replays W true true .closing (Parser.functionBody g) (Parser.functionBody g') s :=
  .bind (formalParameters tracks) fun _ _ _ => .bind returnType fun _ _ _ =>
    .then_ (block tracks) fun _ _ _ => .pure rfl

end Replays

end PhpAnalyser
