import PhpAnalyser.Proofs.Production.Expression
/-!
The walk over the productions of declarations. A type puts itself around its members, a function puts
nothing around its body. What takes the doc comment of its first token is read where a token is left.
-/
namespace PhpAnalyser

namespace Judgement

namespace Says

variable {J : Judgement} {scope : Option TypeScope} {front given : Prop} {n : Nat}

theorem declaredName (expected : String) : J.Says scope front given 0
    (Parser.declaredName expected) (Parser.declaredName expected) (.of J.facts.fine fun _ => 0) := by
  refine J.says_bind (n := 0) (expect _ _) fun a b same => J.says_look fun s t view seen _ => ?_
  refine pure (by rw [view.names, same.text]) (fun known => ?_) rfl
  exact J.facts.fine_qualify seen known.2.1 known.2.2

theorem memberModifiers :
    J.Plain scope front given Parser.memberModifiers Parser.memberModifiers := by
  refine repeated fun modifiers => .current fun a b same _ _ => ?_
  rw [same.kind]
  split
  · exact .then_ skip fun _ => done
  · exact done

theorem propertyHint : J.Plain scope front given Parser.propertyHint Parser.propertyHint :=
  .check _ fun _ => .ite .rfl done (discard typeHint)

section Members

variable {g h : Nested} (inner : J.Inner g h)
include inner

theorem method {a b : Span} (same : J.spans a b) (modifiers : Modifiers) : J.One scope front given 0 3
    (Parser.method g a modifiers) (Parser.method h b modifiers) := by
  refine .then_ skip fun _ => .then_ (eatOperator _) fun _ => .behind_token memberName fun _ _ word =>
    .bind (formalParameters inner) fun parameters => .then_ returnType fun _ => .then_ (eat _) fun _ =>
      .bind (onlyIf _ (block inner)) fun body => ?_
  rw [word.text]
  refine finishCommon rfl same (by decide) ?_ (by simp; omega)
  rintro ⟨⟨-, parameters⟩, body⟩
  exact all_cons.mpr ⟨parameters, body.mono (by decide)⟩

theorem property : J.One scope front given 0 1 (Parser.property g) (Parser.property h) :=
  .behind_token (expect _ _) fun _ _ same => .then_ (eatOperator _) fun _ =>
    .bind (onlyIf _ (expression inner)) fun _ => by
      rw [same.text]
      exact finishCommon rfl (J.tokens_span same) (by decide) And.right (Nat.zero_add _)

theorem propertyDeclaration {a b : Span} (same : J.spans a b) (modifiers : Modifiers) :
    J.One scope front given 0 2 (Parser.propertyDeclaration g a modifiers)
      (Parser.propertyDeclaration h b modifiers) :=
  .then_ propertyHint fun _ => .bind (commaSeparated (property inner)) fun _ =>
    pushStatement rfl same (by decide) And.right (Nat.zero_add _)

theorem constantDeclarator : J.One scope front given 0 1 (Parser.constantDeclarator g)
    (Parser.constantDeclarator h) :=
  .behind_token memberName fun _ _ same => .then_ (expectOperator _ _) fun _ =>
    .bind (expression inner) fun _ => by
      rw [same.text]
      exact finishCommon rfl (J.tokens_span same) (by decide) (fun known => by simp [known.2]) rfl

theorem constantDeclaration : J.One scope front given 0 2 (Parser.constantDeclaration g)
    (Parser.constantDeclaration h) :=
  .behind_token advance fun _ _ same => .bind (commaSeparated (constantDeclarator inner)) fun _ =>
    pushStatement rfl (J.tokens_span same) (by decide) And.right (Nat.zero_add _)

end Members

theorem ruleMethod : J.Says scope front given 0 Parser.ruleMethod Parser.ruleMethod
    (.of (fun rule => ∀ name ∈ rule.1.toList, J.facts.fine name) fun _ => 0) := by
  refine .ahead 1 fun x y next => .check _ fun _ => ?_
  rw [next.kind]
  refine .ite .rfl ?_ (.behind_token memberName fun a b same => pure (by rw [same.text]) ?_ rfl)
  · refine .bind className fun name => .then_ (past _ _) fun _ =>
      .behind_token memberName fun a b same => pure (by rw [same.text]) (fun known => ?_) rfl
    simpa using known.2
  · simp

theorem ruleVisibility : J.Plain scope front given Parser.ruleVisibility Parser.ruleVisibility := by
  refine .current fun a b same _ _ => ?_
  rw [same.kind]
  split
  · exact .then_ skip fun _ => done
  · exact done

theorem ruleAlias : J.Plain scope front given Parser.ruleAlias Parser.ruleAlias := by
  refine .current fun a b same _ _ => ?_
  rw [same.kind]
  exact .ite .rfl done <| .behind_token memberName fun _ _ word =>
    pure (by rw [word.text]) (fun _ => trivial) rfl

/-- A rule that renames excludes no trait. -/
theorem renameRule : J.Says scope front given 0 Parser.renameRule Parser.renameRule
    (.of (fun action => ∀ name ∈ action.excluded, J.facts.fine name) fun _ => 0) :=
  .then_ ruleVisibility fun _ => .then_ ruleAlias fun _ => .ite .rfl (unexpected _) <|
    pure rfl (by simp [Adaptation.excluded]) rfl

theorem ruleAction : J.Says scope front given 0 Parser.ruleAction Parser.ruleAction
    (.of (fun action => ∀ name ∈ action.excluded, J.facts.fine name) fun _ => 0) :=
  .then_ (eat _) fun _ => .ite .rfl (.bind classNames fun _ => pure rfl And.right rfl) <|
    .then_ (eat _) fun _ => .ite .rfl renameRule (unexpected _)

theorem traitAdaptation :
    J.One scope front given 0 1 Parser.traitAdaptation Parser.traitAdaptation := by
  refine .current fun a b same _ _ => .bind ruleMethod fun rule => .bind ruleAction fun action =>
    .behind_span (finishStatement (J.tokens_span same)) fun _ _ span =>
      J.says_push (J.facts.bound_of nofun) ?_ span (by decide) (fun _ => all_nil) fun _ _ => rfl
  rintro ⟨⟨-, named⟩, excluded⟩ name member
  rcases List.mem_append.mp member with here | there
  · exact named name here
  · exact excluded name there

theorem traitRules {a b : Span} (same : J.spans a b) :
    J.Many scope front given 1 (Parser.traitRules a) (Parser.traitRules b) := by
  refine .then_ (eat _) fun _ => .ite .rfl (collect fun rules => ?_) ?_
  · refine .then_ (eat _) fun _ => .ite .rfl (pure rfl And.right rfl) ?_
    exact .bind traitAdaptation fun _ => pure rfl (fun known => by simp [known.1.2, known.2]) (by simp)
  · exact .then_ (pastStatement same) fun _ => pure rfl (fun _ => all_nil) rfl

theorem traitUse : J.One scope front given 0 2 Parser.traitUse Parser.traitUse :=
  .behind_token advance fun _ _ same => .bind classNames fun _ =>
    .bind (traitRules (J.tokens_span same)) fun _ =>
      finish (J.facts.bound_of nofun) (fun known => known.1.2) (J.tokens_span same) (by decide)
        And.right (Nat.zero_add _)

/-- The doc comment of a token that is no mark of the end. -/
theorem declare {kind : NodeKind} {k : Nat} {ids : List Nat} {a b : Token} (same : J.tokens a b)
    (more : ¬J.exact → a.kind ≠ .eof) (bound : J.facts.bound scope kind)
    (names : given → ∀ name ∈ kind.typeNames, J.facts.fine name) (room : k < 6)
    (low : given → J.All (kind.scopeBelow scope) k ids)
    (all : n = ids.length + (if kind.isNamedByExpression then 1 else 0)) :
    J.One scope front given n (k + 1) (Parser.declare kind a ids) (Parser.declare kind b ids) := by
  rw [Parser.declare, Parser.declare, same.doc more, ← Nat.zero_add n]
  exact .pass (finish bound names (J.tokens_span same) room low all) fun i =>
    .then_ (setDocComment i _) fun _ => pure rfl And.right (Nat.zero_add _)

theorem classModifiers : J.Plain scope front given Parser.classModifiers Parser.classModifiers :=
  repeated fun _ => .then_ (eat _) fun _ => .ite .rfl done <|
    .then_ (eat _) fun _ => .ite .rfl done done

theorem parentClass : J.Says scope front given 0 Parser.parentClass Parser.parentClass
    (.of (fun parent => ∀ name, parent = some name → J.facts.fine name) fun _ => 0) :=
  .then_ (eat _) fun _ => .ite .rfl (map (className.mono fun _ fine => by simpa using fine))
    (pure rfl (by simp) rfl)

theorem typesBehind (word : Keyword) : J.Says scope front given 0 (Parser.typesBehind word)
    (Parser.typesBehind word)
    (.of (fun names => ∀ name ∈ names, J.facts.fine name) fun _ => 0) :=
  .then_ (eat _) fun _ => .ite .rfl classNames (pure rfl (by simp) rfl)

/-- The scope that the body of a type is read in. -/
theorem fine_scope {name : String} {isClass : Bool} {parent : Option String}
    (fine : J.facts.fine name) (above : ∀ name, parent = some name → J.facts.fine name) :
    J.facts.FineScope (some ⟨name, isClass, parent⟩) := by
  rintro _ ⟨⟩
  exact ⟨fine, above⟩

section Types

variable {g h : Nested} (inner : J.Inner g h)
include inner

theorem modified (stateful : Bool) {a b : Span} (same : J.spans a b) (modifiers : Modifiers) :
    J.One scope front given 0 3 (Parser.modified g stateful a modifiers)
      (Parser.modified h stateful b modifiers) := by
  refine .current fun x y token _ _ => ?_
  rw [token.kind]
  refine .ite .rfl ((constantDeclaration inner).mono fun _ low => low.mono (by decide)) <|
    .ite .rfl (method inner same modifiers) <| .ite .rfl ?_ (unexpected _)
  exact (propertyDeclaration inner same modifiers).mono fun _ low => low.mono (by decide)

theorem member (stateful : Bool) :
    J.One scope True given 0 3 (Parser.member g stateful) (Parser.member h stateful) := by
  refine .check _ fun _ => .ite .rfl (traitUse.mono fun _ low => low.mono (by decide)) ?_
  refine .current fun a b same _ more => .then_ memberModifiers fun _ =>
    .bind (modified inner stateful (J.tokens_span same) _) fun i => ?_
  rw [same.doc (more trivial)]
  exact .then_ (setDocComment i _) fun _ => pure rfl And.right rfl

theorem members (stateful : Bool) :
    J.Many scope front given 3 (Parser.members g stateful) (Parser.members h stateful) := by
  refine .then_ (past _ _) fun _ => .bind (recovering (fun _ _ same => by rw [same.kind]) ?_) fun _ =>
    .then_ (past _ _) fun _ => pure rfl And.right (Nat.zero_add _)
  exact .bind (member inner stateful) fun _ => pure rfl (fun known => by simp [known.2]) rfl

theorem classDeclaration : J.One scope True given 0 4 (Parser.classDeclaration g)
    (Parser.classDeclaration h) := by
  refine .current fun a b same _ more => .then_ classModifiers fun modifiers =>
    .then_ (past _ _) fun _ => .bind (declaredName _) fun name => .bind parentClass fun parent =>
      .bind (typesBehind _) fun interfaces => .bind (withScope ?_ (members inner true)) fun body =>
        declare same (more trivial) (J.facts.bound_of nofun) ?_ (by decide) And.right (Nat.zero_add _)
  · rintro ⟨⟨⟨-, fine⟩, above⟩, -⟩
    exact fine_scope fine above
  · rintro ⟨⟨⟨⟨-, fine⟩, above⟩, all⟩, -⟩
    have parents : ∀ name ∈ parent.toList, J.facts.fine name := fun name member =>
      above name (Option.mem_toList.mp member)
    simp only [NodeKind.typeNames, List.forall_mem_cons, List.forall_mem_append]
    exact ⟨fine, parents, all⟩

omit inner in
/-- The first token of a declaration that is taken at once. -/
theorem opening {p q : Token → Parser α} {v : Verdict J.exact α}
    (next : ∀ a b, J.tokens a b → (¬J.exact → a.kind ≠ .eof) →
      J.Says scope False given n (p a) (q b) v) :
    J.Says scope True given n (Parser.advance >>= p) (Parser.advance >>= q) v := by
  rw [Parser.advance, bind_assoc, bind_assoc]
  refine .current fun a b same _ more => ?_
  rw [bind_assoc, bind_assoc]
  exact .then_ skip fun _ => next a b same (more trivial)

theorem interfaceDeclaration : J.One scope True given 0 4 (Parser.interfaceDeclaration g)
    (Parser.interfaceDeclaration h) := by
  refine opening fun a b same more => .bind (declaredName _) fun name =>
    .bind (typesBehind _) fun parents => .bind (withScope ?_ (members inner false)) fun body =>
      declare same more (J.facts.bound_of nofun) ?_ (by decide) And.right (Nat.zero_add _)
  · rintro ⟨⟨-, fine⟩, -⟩
    exact fine_scope fine nofun
  · rintro ⟨⟨⟨-, fine⟩, all⟩, -⟩
    exact List.forall_mem_cons.mpr ⟨fine, all⟩

theorem traitDeclaration : J.One scope True given 0 4 (Parser.traitDeclaration g)
    (Parser.traitDeclaration h) := by
  refine opening fun a b same more => .bind (declaredName _) fun name =>
    .bind (withScope (fun known => fine_scope known.2 nofun) (members inner true)) fun body =>
      declare same more (J.facts.bound_of nofun) ?_ (by decide) And.right (Nat.zero_add _)
  rintro ⟨⟨-, fine⟩, -⟩
  exact List.forall_mem_singleton.mpr fine

theorem functionBody :
    J.Many scope front given 2 (Parser.functionBody g) (Parser.functionBody h) :=
  .bind (formalParameters inner) fun _ => .then_ returnType fun _ => .bind (block inner) fun _ =>
    pure rfl (fun known => by simp [known.1.2, known.2.mono (l := 2)]) rfl

/-- No type stands around the body of a function. -/
theorem functionDeclaration : J.One scope True given 0 3 (Parser.functionDeclaration g)
    (Parser.functionDeclaration h) := by
  refine opening fun a b same more => .then_ (eatOperator _) fun byRef =>
    .bind (declaredName _) fun name =>
    .bind (withScope (fun _ => nofun) (functionBody inner)) fun body =>
      declare same more (J.facts.bound_of nofun) ?_ (by decide) And.right (Nat.zero_add _)
  rintro ⟨⟨-, fine⟩, -⟩
  exact List.forall_mem_singleton.mpr fine

end Types

end Says

end Judgement

end PhpAnalyser
