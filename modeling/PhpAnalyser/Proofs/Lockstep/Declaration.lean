import PhpAnalyser.Grammar.Declaration
import PhpAnalyser.Proofs.Lockstep.Expression
/-!
The productions of types, their members, functions and constants, read side by side.
-/
namespace PhpAnalyser

variable {α : Type} {E : Excerpt} {depth : Nat} {g : Nested} {s t : ParserState}

theorem declared_name_steady {expected : String} :
    Steady E (Parser.declaredName expected) Any := by
  intro s t twin
  refine (expect_steady (by nofun)).then twin fun token s token' t twin => ?_
  exact .get <| .pure ⟨twin, trivial⟩

theorem member_modifiers_steady : Steady E Parser.memberModifiers Same := by
  intro s t twin
  refine .loop (R := Same) twin rfl ?_
  rintro modifiers _ s t twin ⟨⟩
  refine .current ?_
  rw [← twin.like.kind]
  split
  next found =>
    refine .skip twin (fun no => ?_) fun twin => .pure ⟨twin, rfl⟩
    rw [no] at found
    cases found
  next => exact .pure ⟨twin, rfl⟩

/-- What ends without an effect on what is read next ends when the tokens have run out too. -/
theorem Meets.last {p q : Parser α} {R : α → ParserState → α → ParserState → Prop} {β : Type}
    {parted : ParserState → ParserState → Prop} {f f' : α → Parser β}
    (first : Meets E p q s t (Closes E parted R)) (own : ∀ a, Quiet (f a))
    (whole : ∀ a, Quiet (f' a)) : Meets E (p >>= f) (q >>= f') s t (Closes E Freely Any) :=
  first.fall (fun a _ ends => (own a).idle ends) fun a _ b _ twin _ =>
    ((own a).level (whole b) twin.toNear).closes

theorem method_meets (nested : Lockstep E depth g) {start start' : Span} {modifiers : Modifiers}
    (twin : Twin E s t) (other : s.token.kind ≠ .semicolon) :
    Meets E (Parser.method g start modifiers) (Parser.method g start' modifiers) s t
      (Closes E Freely Any) := by
  refine .skip twin other fun twin => eat_operator_steady.same twin fun byRef s t twin => ?_
  refine member_name_steady.then twin fun token s token' t twin => ?_
  refine (formal_parameters_steady nested).then twin fun parameters s parameters' t twin => ?_
  refine return_type_steady.then twin fun _ s _ t twin => ?_
  refine (eat_meets twin).behind ?_
  rintro (_ | _) s _ t near ⟨rfl, more⟩
  · refine (only_if_steady (block_steady nested)).then (more rfl) fun body s body' t twin => ?_
    exact (finish_meets twin).level.closes
  · have ends {kind : NodeKind} {start : Span} {parameters : Nat} : Quiet (do
        let body ← Parser.onlyIf (!true) (Parser.block g)
        Parser.finish kind start (parameters :: body)) :=
      .bind (.pure []) fun _ => finish_builds.quiet
    exact (ends.level ends near).closes

theorem property_steady (nested : Lockstep E depth g) : Steady E (Parser.property g) Any := by
  intro s t twin
  refine (expect_steady (by nofun)).then twin fun token s token' t twin => ?_
  refine eat_operator_steady.same twin fun hasValue s t twin => ?_
  refine (only_if_steady (expression_steady nested)).then twin fun value s value' t twin => ?_
  exact finish_meets twin

theorem property_hint_steady : Steady E Parser.propertyHint Any := by
  intro s t twin
  refine .check twin (fun _ => .pure ⟨twin, trivial⟩) fun _ => ?_
  exact type_hint_steady.discard s t twin

theorem property_declaration_meets (nested : Lockstep E depth g) {start start' : Span}
    {modifiers : Modifiers} (twin : Twin E s t) :
    Meets E (Parser.propertyDeclaration g start modifiers)
      (Parser.propertyDeclaration g start' modifiers) s t (Both (Near E) Any) := by
  refine property_hint_steady.then twin fun _ s _ t twin => ?_
  refine (comma_separated_steady (property_steady nested)).then twin fun ids s ids' t twin => ?_
  exact push_statement_meets twin

theorem constant_declarator_steady (nested : Lockstep E depth g) :
    Steady E (Parser.constantDeclarator g) Any := by
  intro s t twin
  refine member_name_steady.then twin fun token s token' t twin => ?_
  refine expect_operator_steady.then twin fun _ s _ t twin => ?_
  refine (expression_steady nested).then twin fun value s value' t twin => ?_
  exact finish_meets twin

theorem constant_declaration_meets (nested : Lockstep E depth g) (twin : Twin E s t)
    (other : s.token.kind ≠ .semicolon) :
    Meets E (Parser.constantDeclaration g) (Parser.constantDeclaration g) s t
      (Both (Near E) Any) := by
  refine .advance twin other fun _ twin => ?_
  refine (comma_separated_steady (constant_declarator_steady nested)).then twin ?_
  exact fun ids s ids' t twin => push_statement_meets twin

def Rejects (p : Parser α) (s : ParserState) : Prop :=
  ∃ e, p s = some (.error e, s) ∧ e.fault.isRecoverable ∧ e.span = s.token.span

theorem Rejects.unexpected {expected : List String} (semicolon : s.token.kind = .semicolon) :
    Rejects (Parser.unexpected expected : Parser α) s := by
  have semicolon : s.stream.current.kind = .semicolon := semicolon
  refine ⟨_, rfl, ?_, rfl⟩
  rw [semicolon]
  rfl

theorem Rejects.bind {β : Type} {p : Parser α} {f : α → Parser β} (rejects : Rejects p s) :
    Rejects (p >>= f) s := by
  obtain ⟨e, run, rest⟩ := rejects
  exact ⟨e, by rw [run_bind, run], rest⟩

theorem Rejects.meets {β : Type} {p : Parser α} {q : Parser β}
    {P : α → ParserState → Outcome β → Prop} (own : Rejects p s) (whole : Rejects q t)
    (twin : Twin E s t) : Meets E p q s t P := by
  obtain ⟨e, run, recoverable, span⟩ := own
  obtain ⟨f, run', recoverable', span'⟩ := whole
  intro out step
  rw [run'] at step
  cases step
  rw [run]
  exact fun _ => ⟨twin, recoverable', span, span'⟩

theorem Rejects.current {f : Token → Parser α} (rejects : Rejects (f s.token) s) :
    Rejects (Parser.current >>= f) s := rejects

theorem Rejects.ahead {f : Token → Parser α} (rejects : Rejects (f (s.stream.peek 1)) s) :
    Rejects (Parser.ahead 1 >>= f) s := rejects

/-- No name starts with a semicolon. -/
theorem rejects_name (semicolon : s.token.kind = .semicolon) : Rejects Parser.name s := by
  refine .current <| Rejects.bind (.current <| .ahead ?_)
  rw [semicolon]
  exact .unexpected semicolon

theorem rejects_member_name (semicolon : s.token.kind = .semicolon) :
    Rejects Parser.memberName s := by
  refine .current ?_
  rw [semicolon]
  exact .unexpected semicolon

/-- The method of a rule cannot start with a semicolon, whatever comes behind it. -/
theorem rejects_rule_method (semicolon : s.token.kind = .semicolon) :
    Rejects Parser.ruleMethod s := by
  have name : Rejects Parser.className s := (rejects_name semicolon).bind
  have member := rejects_member_name semicolon
  refine .ahead ?_
  change Rejects (if _ then _ else _) s
  split
  · exact name.bind
  · exact member.bind

theorem rule_method_steady : Steady E Parser.ruleMethod Any := by
  intro s t twin
  by_cases semicolon : s.token.kind = .semicolon
  · have semicolon' : t.token.kind = .semicolon := twin.like.kind ▸ semicolon
    exact (rejects_rule_method semicolon).meets (rejects_rule_method semicolon') twin
  refine .ahead <| .test <| .ite ?_ (fun _ => ?_) fun _ => ?_
  · rw [twin.like.kind, (twin.ahead semicolon).kind]
  · refine class_name_steady.then twin fun traitName s traitName' t twin => ?_
    refine .mark twin (by nofun) fun s t twin => ?_
    exact member_name_steady.then twin fun token s token' t twin => .pure ⟨twin, trivial⟩
  · exact member_name_steady.then twin fun token s token' t twin => .pure ⟨twin, trivial⟩

theorem rule_visibility_steady : Steady E Parser.ruleVisibility Same := by
  intro s t twin
  refine .current ?_
  rw [← twin.like.kind]
  split
  next visibility found =>
    refine .skip twin (fun no => ?_) fun twin => .pure ⟨twin, rfl⟩
    rw [no] at found
    cases found
  next => exact .pure ⟨twin, rfl⟩

theorem rule_alias_steady : Steady E Parser.ruleAlias Same := by
  intro s t twin
  refine .current ?_
  rw [← twin.like.kind]
  refine .ite .rfl (fun _ => .pure ⟨twin, rfl⟩) fun _ => ?_
  refine (member_name_steady s t twin).bind fun token s token' t twin like => .pure ⟨twin, ?_⟩
  rw [Same, like.text]

theorem rename_rule_steady : Steady E Parser.renameRule Any := by
  intro s t twin
  refine rule_visibility_steady.same twin fun visibility s t twin => ?_
  refine rule_alias_steady.same twin fun newName s t twin => ?_
  exact .ite .rfl (fun _ => .unexpected twin) fun _ => .pure ⟨twin, trivial⟩

theorem rule_action_steady : Steady E Parser.ruleAction Any := by
  intro s t twin
  refine (eat_steady (by nofun)).same twin fun isPrecedence s t twin => .ite .rfl (fun _ => ?_) ?_
  · exact class_names_steady.then twin fun names s names' t twin => .pure ⟨twin, trivial⟩
  intro _
  refine (eat_steady (by nofun)).same twin fun isRename s t twin => ?_
  exact .ite .rfl (fun _ => rename_rule_steady s t twin) fun _ => .unexpected twin

theorem trait_adaptation_meets (twin : Twin E s t) :
    Meets E Parser.traitAdaptation Parser.traitAdaptation s t (Both (Near E) Any) := by
  refine .current <| rule_method_steady.then twin ?_
  rintro ⟨traitName, method⟩ s ⟨traitName', method'⟩ t twin
  refine rule_action_steady.then twin fun action s action' t twin => ?_
  exact push_statement_meets twin

theorem starved_name (ends : s.token.kind = .eof) : Starved Parser.name s := by
  refine .current <| Starved.bind (.current <| .ahead ?_)
  rw [ends]
  exact starved_unexpected ends

theorem starved_member_name (ends : s.token.kind = .eof) : Starved Parser.memberName s := by
  refine .current ?_
  rw [ends]
  exact starved_unexpected ends

theorem starved_trait_adaptation (ends : s.token.kind = .eof) :
    Starved Parser.traitAdaptation s := by
  have name : Starved Parser.className s := (starved_name ends).bind
  have member := starved_member_name ends
  refine .current <| Starved.bind (.ahead ?_)
  change Starved (if _ then _ else _) s
  split
  · exact name.bind
  · exact member.bind

theorem trait_rules_meets {start start' : Span} (twin : Twin E s t) :
    Meets E (Parser.traitRules start) (Parser.traitRules start') s t (Both (Near E) Any) := by
  refine (eat_steady (by nofun)).same twin fun isBraced s t twin => .ite .rfl (fun _ => ?_) ?_
  · refine Meets.level (R := Any) (.falter (R := Any) (Q := Any) twin trivial ?_ ?_)
    · intro rules rules' s t twin _
      refine (eat_steady (by nofun)).same twin fun ended s t twin => ?_
      refine .ite .rfl (fun _ => .pure (.inr ⟨twin, trivial⟩)) fun _ => ?_
      refine (trait_adaptation_meets twin).behind fun rule s rule' t near _ => ?_
      by_cases ends : s.token.kind = .eof
      · exact .pure (.inl ⟨ends, _, rfl⟩)
      · exact .pure (.inr ⟨⟨near, ends⟩, trivial⟩)
    · intro rules s ends
      exact Starved.step (eat_ends ends (by nofun)) (starved_trait_adaptation ends).bind
  · intro _
    refine (finish_statement_meets twin).dropped.behind ?_
    exact fun _ _ _ _ near _ => .pure ⟨near, trivial⟩

theorem trait_use_meets (twin : Twin E s t) (other : s.token.kind ≠ .semicolon) :
    Meets E Parser.traitUse Parser.traitUse s t (Both (Near E) Any) := by
  refine .advance twin other fun _ twin => ?_
  refine class_names_steady.then twin fun traits s traits' t twin => ?_
  refine (trait_rules_meets twin).behind fun rules s rules' t near _ => ?_
  exact finish_builds.quiet.level finish_builds.quiet near

theorem modified_meets (nested : Lockstep E depth g) {stateful : Bool} {start start' : Span}
    {modifiers : Modifiers} (twin : Twin E s t) :
    Meets E (Parser.modified g stateful start modifiers)
      (Parser.modified g stateful start' modifiers) s t (Closes E Freely Any) := by
  refine .current ?_
  rw [← twin.like.kind]
  refine .ite .rfl (fun kind => ?_) fun _ => .ite .rfl (fun kind => ?_) fun _ =>
    .ite .rfl (fun _ => ?_) fun _ => .unexpected twin
  · exact (constant_declaration_meets nested twin (by rw [kind]; nofun)).closes
  · exact method_meets nested twin (by rw [kind]; nofun)
  · exact (property_declaration_meets nested twin).closes

theorem member_free (nested : Lockstep E depth g) {stateful : Bool} :
    Free E (Parser.member g stateful) := by
  intro s t twin
  have rest : Free E (do
      let start ← Parser.current
      let modifiers ← Parser.memberModifiers
      let id ← Parser.modified g stateful start.span modifiers
      Parser.setDocComment id start.docComment
      return id) := by
    intro s t twin
    refine .current <| member_modifiers_steady.same twin fun modifiers s t twin => ?_
    exact (modified_meets nested twin).last (fun _ => set_doc_comment_quiet.bind fun _ => .pure _)
      fun _ => set_doc_comment_quiet.bind fun _ => .pure _
  refine .check twin (fun kind => .ite .rfl (fun _ => ?_) fun _ => rest s t twin) fun _ =>
    .ite .rfl (fun no => ?_) fun _ => rest s t twin
  · exact (trait_use_meets twin (by rw [kind]; nofun)).closes
  · simp at no

theorem members_steady (nested : Lockstep E depth g) {stateful : Bool} :
    Steady E (Parser.members g stateful) Any := by
  intro s t twin
  refine .mark twin (by nofun) fun s t twin => ?_
  refine (recovering_free (fun a b like => by rw [like.kind]) ?_ twin).shut ?_ ?_
  · exact fun s t twin => (member_free nested s t twin).last (fun _ => .pure _) fun _ => .pure _
  · exact fun ids s ends => starved_mark ends (by nofun)
  · exact fun ids s ids' t twin _ => .mark twin (by nofun) fun s t twin => .pure ⟨twin, trivial⟩

theorem declare_quiet {kind : NodeKind} {start : Token} {children : List Nat} :
    Quiet (Parser.declare kind start children) :=
  finish_builds.quiet.bind fun _ => set_doc_comment_quiet.bind fun _ => .pure _

theorem class_modifiers_steady : Steady E Parser.classModifiers Any := by
  intro s t twin
  refine .loop (R := Any) twin trivial fun modifiers modifiers' s t twin _ => ?_
  refine (eat_steady (by nofun)).same twin fun isAbstract s t twin => ?_
  refine .ite .rfl (fun _ => .pure ⟨twin, trivial⟩) fun _ => ?_
  refine (eat_steady (by nofun)).same twin fun isFinal s t twin => ?_
  exact .ite .rfl (fun _ => .pure ⟨twin, trivial⟩) fun _ => .pure ⟨twin, trivial⟩

/-- A class has a parent wherever it stands. -/
theorem parent_class_steady : Steady E Parser.parentClass fun a _ b _ => a.isSome = b.isSome := by
  intro s t twin
  refine (eat_steady (by nofun)).same twin fun extends_ s t twin => ?_
  refine .ite .rfl (fun _ => ?_) fun _ => .pure ⟨twin, rfl⟩
  exact Steady.map (f := some) (class_name_steady.mono fun _ _ _ _ _ => rfl) s t twin

theorem types_behind_steady {word : Keyword} : Steady E (Parser.typesBehind word) Any := by
  intro s t twin
  refine (eat_steady (by nofun)).same twin fun listed s t twin => ?_
  exact .ite .rfl (fun _ => class_names_steady s t twin) fun _ => .pure ⟨twin, trivial⟩

theorem Twin.scoped {scope scope' : Option TypeScope} (twin : Twin E s t)
    (within_ : Within scope scope') : Twin E { s with scope } { t with scope := scope' } where
  own := twin.own
  whole := twin.whole
  place := twin.place
  depth := twin.depth
  scope := within_
  told := twin.told
  more := twin.more

theorem Meets.withScope {scope scope' : Option TypeScope} {p q : Parser α} (twin : Twin E s t)
    (within_ : Within scope scope') (meets : ∀ s t, Twin E s t → Meets E p q s t (Steadily E Any)) :
    Meets E (Parser.withScope scope p) (Parser.withScope scope' q) s t (Steadily E Any) := by
  change Meets E (Parser.restoring (fun s' => { s' with scope := s.scope }) p)
    (Parser.restoring (fun t' => { t' with scope := t.scope }) q) { s with scope }
    { t with scope := scope' } _
  refine .restoring (meets _ _ (twin.scoped within_)) (fun _ => rfl) (fun _ => rfl) ?_ ?_
  · exact fun s' t' twin' => twin'.scoped twin.scope
  · rintro a s' (_ | b) t' holds
    · exact holds
    · exact ⟨holds.1.scoped twin.scope, trivial⟩

theorem Within.some {a b : TypeScope} (isClass : a.isClass = b.isClass)
    (parent : a.parent.isSome = b.parent.isSome) : Within (some a) (some b) := by
  rintro _ ⟨⟩
  exact ⟨b, rfl, isClass, parent⟩

theorem class_declaration_steady (nested : Lockstep E depth g) :
    Steady E (Parser.classDeclaration g) Any := by
  intro s t twin
  refine .current <| class_modifiers_steady.then twin fun modifiers s modifiers' t twin => ?_
  refine .mark twin (by nofun) fun s t twin => ?_
  refine declared_name_steady.then twin fun name s name' t twin => ?_
  refine (parent_class_steady s t twin).bind fun parent s parent' t twin same => ?_
  refine types_behind_steady.then twin fun interfaces s interfaces' t twin => ?_
  refine (Meets.withScope twin ?_ (members_steady nested)).bind ?_
  · exact .some rfl same
  · exact fun body s body' t twin _ => declare_quiet.meets declare_quiet twin

theorem interface_declaration_meets (nested : Lockstep E depth g) (twin : Twin E s t)
    (other : s.token.kind ≠ .semicolon) :
    Meets E (Parser.interfaceDeclaration g) (Parser.interfaceDeclaration g) s t
      (Steadily E Any) := by
  refine .advance twin other fun _ twin => ?_
  refine declared_name_steady.then twin fun name s name' t twin => ?_
  refine types_behind_steady.then twin fun parents s parents' t twin => ?_
  refine (Meets.withScope twin ?_ (members_steady nested)).bind ?_
  · exact .some rfl rfl
  · exact fun body s body' t twin _ => declare_quiet.meets declare_quiet twin

theorem trait_declaration_meets (nested : Lockstep E depth g) (twin : Twin E s t)
    (other : s.token.kind ≠ .semicolon) :
    Meets E (Parser.traitDeclaration g) (Parser.traitDeclaration g) s t (Steadily E Any) := by
  refine .advance twin other fun _ twin => ?_
  refine declared_name_steady.then twin fun name s name' t twin => ?_
  refine (Meets.withScope twin ?_ (members_steady nested)).bind ?_
  · exact .some rfl rfl
  · exact fun body s body' t twin _ => declare_quiet.meets declare_quiet twin

theorem function_body_steady (nested : Lockstep E depth g) :
    Steady E (Parser.functionBody g) Any := by
  intro s t twin
  refine (formal_parameters_steady nested).then twin fun parameters s parameters' t twin => ?_
  refine return_type_steady.then twin fun _ s _ t twin => ?_
  exact (block_steady nested).then twin fun body s body' t twin => .pure ⟨twin, trivial⟩

theorem function_declaration_meets (nested : Lockstep E depth g) (twin : Twin E s t)
    (other : s.token.kind ≠ .semicolon) :
    Meets E (Parser.functionDeclaration g) (Parser.functionDeclaration g) s t
      (Steadily E Any) := by
  refine .advance twin other fun _ twin => ?_
  refine eat_operator_steady.same twin fun byRef s t twin => ?_
  refine declared_name_steady.then twin fun name s name' t twin => ?_
  refine (Meets.withScope twin ?_ (function_body_steady nested)).bind ?_
  · exact fun _ no => nomatch no
  · exact fun body s body' t twin _ => declare_quiet.meets declare_quiet twin

end PhpAnalyser
