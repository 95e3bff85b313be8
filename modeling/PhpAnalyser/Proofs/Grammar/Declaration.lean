import PhpAnalyser.Grammar.Declaration
import PhpAnalyser.Proofs.Grammar.Expression
/-!
What the productions of types, members and functions make.
-/
namespace PhpAnalyser

variable {g : Nested} {c : Setting} {origin s : ParserState} {ids : List Nat}

structure Named (c : Setting) (s : ParserState) (name : String) : Prop where
  stands : s.errors = [] → ∀ space floor, c.space = some (space, floor) → StandsIn space name
  clean : s.errors = [] → Clean name

theorem Named.later {name : String} {s' : ParserState} (named : Named c s name)
    (onward : Onward s s') : Named c s' name :=
  ⟨fun none => named.stands (onward.clean none), fun none => named.clean (onward.clean none)⟩

theorem declared_name_reads {expected : String} (underway : Underway c origin s ids) :
    Reads origin (Parser.declaredName expected) s fun name s' =>
      Underway c origin s' ids ∧ s.place < s'.place ∧ Named c s' name := by
  refine .bind (expect_reads underway rfl) ?_
  rintro _ s₁ ⟨rfl, identifier, took⟩
  have sound := took.underway.sound
  refine .get ⟨took.underway, took.place_lt, fun none space floor inside => ?_, fun none => ?_⟩
  · rw [← (sound.housed none space floor inside).package]
    exact s₁.names.qualify_stands (underway.sound.lexed.simple _ s.token_mem identifier)
  · refine NameContext.qualify_clean (sound.worded none).package ?_
      (underway.sound.lexed.simple _ s.token_mem identifier)
    apply underway.sound.lexed.solid _ s.token_mem
    rw [identifier]
    rfl

theorem member_modifiers_takes : Takes 0 c Parser.memberModifiers := by
  refine .loop 0 (fun modifiers origin s ids underway => ?_) _
  refine .current ?_
  split
  next known =>
    obtain ⟨word, isWord, -⟩ := Option.bind_eq_some_iff.mp known
    have ordinary : s.token.kind.isOrdinary := by
      change s.token.kind.keyword? = some word at isWord
      cases kind : s.token.kind <;> first | rfl | (rw [kind] at isWord; cases isWord)
    exact .bind (skip_reads underway ordinary) fun _ s' took => ⟨took.underway, took.place_lt⟩
  next => exact ⟨underway, Nat.le_refl _⟩

theorem method_reads (readers : Readers c.depth g) {modifiers : Modifiers}
    (underway : Underway c origin s []) (word : s.token.kind = .keyword .function_) :
    Reads origin (Parser.method g origin.token.span modifiers) s (Atom c origin) := by
  have from_ := underway.onward.place_le
  apply Reads.skip underway (by rw [word]; rfl)
  intro s₁ took
  have lt := took.place_lt
  refine .bind (eat_operator_reads took.underway) ?_
  rintro byRef s₂ ⟨underway, le₂, -⟩
  refine .bind (member_name_reads underway) ?_
  rintro _ s₃ ⟨rfl, -, took⟩
  have lt₃ := took.place_lt
  apply Reads.below took.underway (formal_parameters_reads readers took.underway.sound).made
  intro parameters s₄ underway lt₄
  apply return_type_takes.then underway
  intro _ s₅ underway le₅
  refine .bind (eat_reads underway rfl) ?_
  rintro isAbstract s₆ ⟨underway, le₆, -⟩
  refine .bind (.parts underway (.optional underway.sound fun _ =>
    (block_reads readers underway.sound).made)) ?_
  rintro body s₇ ⟨underway, le₇⟩
  exact finish_atom underway (by omega) rfl

theorem property_reads (readers : Readers c.depth g) (sound : Sound c s) :
    Reads s (Parser.property g) s (Atom c s) := by
  refine .bind (expect_reads sound.underway rfl) ?_
  rintro _ s₁ ⟨rfl, -, took⟩
  have lt := took.place_lt
  refine .bind (eat_operator_reads took.underway) ?_
  rintro hasValue s₂ ⟨underway, le₂, -⟩
  refine .bind (.parts underway (.optional underway.sound fun _ =>
    expression_reads readers underway.sound)) ?_
  rintro value s₃ ⟨underway, le₃⟩
  exact finish_atom underway (by omega) rfl

theorem property_hint_takes : Takes 0 c Parser.propertyHint := by
  intro origin s ids underway
  refine .test <| .ite (fun _ => ⟨underway, Nat.le_refl _⟩) fun _ => .discard ?_
  exact (type_hint_takes _ _ _ underway).mono fun _ _ holds => ⟨holds.1, Nat.le_of_lt holds.2⟩

theorem property_declaration_reads (readers : Readers c.depth g) {modifiers : Modifiers}
    (underway : Underway c origin s []) :
    Reads origin (Parser.propertyDeclaration g origin.token.span modifiers) s (Atom c origin) := by
  have from_ := underway.onward.place_le
  apply property_hint_takes.then underway
  intro _ s₁ underway le₁
  refine .bind ((comma_separated_reads underway.sound fun _ sound =>
    (property_reads readers sound).made).from_ underway.onward) ?_
  rintro properties s₂ ⟨more, lt⟩
  exact push_statement_reads (underway.then more) (by omega) rfl

theorem constant_declarator_reads (readers : Readers c.depth g) (sound : Sound c s) :
    Reads s (Parser.constantDeclarator g) s (Atom c s) := by
  refine .bind (member_name_reads sound.underway) ?_
  rintro _ s₁ ⟨rfl, -, took⟩
  have lt := took.place_lt
  refine .bind (expect_operator_reads took.underway) ?_
  rintro - s₂ took
  have lt₂ := took.place_lt
  apply Reads.below took.underway (expression_reads readers took.underway.sound)
  intro value s₃ underway lt₃
  exact finish_atom underway (by omega) rfl

theorem constant_declaration_reads (readers : Readers c.depth g) (sound : Sound c s)
    (word : s.token.kind = .keyword .const_) :
    Reads s (Parser.constantDeclaration g) s (Atom c s) := by
  apply Reads.advance sound.underway (by rw [word]; rfl)
  intro s₁ took
  have lt := took.place_lt
  refine .bind ((comma_separated_reads took.underway.sound fun _ sound =>
    (constant_declarator_reads readers sound).made).from_ took.underway.onward) ?_
  rintro declarators s₂ ⟨more, lt₂⟩
  exact push_statement_reads (took.underway.then more) (by omega) rfl

theorem rule_method_takes : Takes 1 c Parser.ruleMethod := by
  intro origin s ids underway
  refine .ahead <| .test <| .ite (fun _ => ?_) fun _ => ?_
  · apply class_name_takes.then underway
    intro traitName s₁ underway lt₁
    refine .mark underway rfl ?_
    intro s₂ took
    have lt₂ := took.place_lt
    refine .bind (member_name_reads took.underway) ?_
    rintro _ s₃ ⟨rfl, -, took⟩
    have lt₃ := took.place_lt
    exact ⟨took.underway, by omega⟩
  · refine .bind (member_name_reads underway) ?_
    rintro _ s₁ ⟨rfl, -, took⟩
    exact ⟨took.underway, took.place_lt⟩

theorem rule_visibility_takes : Takes 0 c Parser.ruleVisibility := by
  intro origin s ids underway
  refine .current ?_
  split
  next known =>
    have ordinary : s.token.kind.isOrdinary := by
      change Parser.visibilityWord s.token.kind = some _ at known
      unfold Parser.visibilityWord at known
      split at known
      next kind => rw [kind]; rfl
      next kind => rw [kind]; rfl
      next kind => rw [kind]; rfl
      next => cases known
    exact .bind (skip_reads underway ordinary) fun _ s' took =>
      ⟨took.underway, Nat.le_of_lt took.place_lt⟩
  next => exact ⟨underway, Nat.le_refl _⟩

theorem rule_alias_takes : Takes 0 c Parser.ruleAlias := by
  intro origin s ids underway
  refine .current <| .ite (fun _ => ⟨underway, Nat.le_refl _⟩) fun _ => ?_
  refine .bind (member_name_reads underway) ?_
  rintro _ s₁ ⟨rfl, -, took⟩
  exact ⟨took.underway, Nat.le_of_lt took.place_lt⟩

theorem rename_rule_takes : Takes 0 c Parser.renameRule := by
  intro origin s ids underway
  apply rule_visibility_takes.then underway
  intro visibility s₁ underway le₁
  apply rule_alias_takes.then underway
  intro newName s₂ underway le₂
  refine .ite (fun _ => ?_) fun _ => ⟨underway, Nat.le_trans le₁ le₂⟩
  exact unexpected_reads underway.sound.toValid underway.onward

theorem rule_action_takes : Takes 1 c Parser.ruleAction := by
  intro origin s ids underway
  refine .bind (eat_reads underway rfl) ?_
  rintro excludes s₁ ⟨underway, le₁, lt₁⟩
  refine .ite (fun isExcludes => ?_) fun _ => .bind (eat_reads underway rfl) ?_
  · apply class_names_takes.then underway
    intro names s₂ underway lt₂
    exact ⟨underway, Nat.le_trans (lt₁ isExcludes) (Nat.le_of_lt lt₂)⟩
  rintro renames s₂ ⟨underway, le₂, lt₂⟩
  refine .ite (fun isRenames => ?_) fun _ => ?_
  · refine (rename_rule_takes _ _ _ underway).mono ?_
    rintro rule s₃ ⟨underway, le₃⟩
    have lt₂ := lt₂ isRenames
    exact ⟨underway, by omega⟩
  · exact unexpected_reads underway.sound.toValid underway.onward

theorem trait_adaptation_reads (sound : Sound c s) :
    Reads s Parser.traitAdaptation s (Atom c s) := by
  refine .current <| .bind (rule_method_takes _ _ _ sound.underway) ?_
  rintro ⟨traitName, method⟩ s₁ ⟨underway, lt₁⟩
  apply rule_action_takes.then underway
  intro action s₂ underway lt₂
  exact push_statement_reads underway (by omega) rfl

theorem trait_rules_reads (underway : Underway c origin s []) (lt : origin.place < s.place) :
    Reads origin (Parser.traitRules origin.token.span) s fun rules s' =>
      Underway c origin s' rules ∧ s.place ≤ s'.place := by
  refine .bind (eat_reads underway rfl) ?_
  rintro opens s₁ ⟨underway, le₁, -⟩
  refine .ite (fun _ => ?_) fun _ => ?_
  · refine .loop (I := fun rules s' => Underway c origin s' rules ∧ s.place ≤ s'.place)
      (fun _ _ h => h.1.onward.tokens) ⟨underway, le₁⟩ ?_
    rintro rules s₂ ⟨underway, le₂⟩
    refine .bind (eat_reads underway rfl) ?_
    rintro closes s₃ ⟨underway, le₃, -⟩
    refine .ite (fun _ => ⟨underway, by omega⟩) fun _ => ?_
    apply Reads.below underway (trait_adaptation_reads underway.sound).made
    intro rule s₄ underway lt₄
    exact ⟨⟨underway, by omega⟩, by omega⟩
  · refine .bind (.discard (Q := fun _ s' => Underway c origin s' [] ∧ s₁.place < s'.place) ?_) ?_
    · refine (finish_statement_reads underway (by omega)).mono ?_
      rintro _ s₂ ⟨-, -, -, underway, lt₂⟩
      exact ⟨underway, lt₂⟩
    · rintro - s₂ ⟨underway, lt₂⟩
      exact ⟨underway, by omega⟩

theorem trait_use_reads (sound : Sound c s) (word : s.token.kind = .keyword .use_) :
    Reads s Parser.traitUse s (Atom c s) := by
  apply Reads.advance sound.underway (by rw [word]; rfl)
  intro s₁ took
  have lt := took.place_lt
  apply class_names_takes.then took.underway
  intro traits s₂ underway lt₂
  refine .bind (trait_rules_reads underway (by omega)) ?_
  rintro rules s₃ ⟨underway, le₃⟩
  exact finish_atom underway (by omega) rfl

theorem modified_reads (readers : Readers c.depth g) {stateful : Bool} {modifiers : Modifiers}
    (underway : Underway c origin s []) :
    Reads origin (Parser.modified g stateful origin.token.span modifiers) s (Made c origin) := by
  have from_ := underway.onward.place_le
  refine .current <| .ite (fun word => ?_) fun _ => .ite (fun word => ?_) fun _ =>
    .ite (fun _ => ?_) fun _ => ?_
  · have reads := (constant_declaration_reads readers underway.sound word).made
    refine (Reads.part underway reads).mono ?_
    rintro i s₁ ⟨underway, lt⟩
    exact ⟨underway, by omega⟩
  · exact (method_reads readers underway word).made
  · exact (property_declaration_reads readers underway).made
  · exact unexpected_reads underway.sound.toValid underway.onward

theorem member_reads (readers : Readers c.depth g) {stateful : Bool} (sound : Sound c s) :
    Reads s (Parser.member g stateful) s (Made c s) := by
  refine .test <| .ite (fun both => ?_) fun _ => ?_
  · rw [Bool.and_eq_true, decide_eq_true_eq] at both
    exact (trait_use_reads sound both.2).made
  refine .current <| .bind (member_modifiers_takes _ _ _ sound.underway) ?_
  rintro modifiers s₁ ⟨underway, le⟩
  refine .bind (modified_reads readers underway) fun id s₂ made => ?_
  exact .bind (set_doc_comment_reads made) fun _ s₃ made => made

theorem members_reads (readers : Readers c.depth g) {stateful : Bool} (sound : Sound c s) :
    Reads s (Parser.members g stateful) s fun ids s' =>
      Underway c s s' ids ∧ s.place < s'.place := by
  refine .mark sound.underway rfl ?_
  intro s₁ took
  have lt := took.place_lt
  have gathered := recovering_reads (fun t => t.kind = .rightBrace)
    (do return [← Parser.member g stateful]) took.underway.sound fun s₂ sound _ _ _ =>
      (member_reads readers sound).bind fun _ _ made => ⟨made.toGathered, made.place_lt⟩
  refine .bind (.gathered took.underway lt (gathered.mono fun _ _ => And.left)) ?_
  rintro ids s₂ ⟨underway, le⟩
  refine .mark underway rfl ?_
  intro s₃ took
  have lt' := took.place_lt
  exact ⟨took.underway, by omega⟩

theorem declare_reads {kind : NodeKind} (underway : Underway c origin s ids)
    (lt : origin.place < s.place) (free : kind.isFree) (fits : Fits c s kind) :
    Reads origin (Parser.declare kind origin.token ids) s (Made c origin) := by
  have made := (finish_reads underway lt (.of_free free) fits).mono fun _ _ pushed => pushed.toMade
  refine .bind made fun id s₁ made => ?_
  exact .bind (set_doc_comment_reads made) fun _ s₂ made => made

/-- The surrounding type has no effect on the tokens and the nodes. -/
theorem with_scope_reads {scope : Option TypeScope} {p : Parser (List Nat)} (sound : Sound c s)
    (reads : ∀ s, Sound c s → Reads s p s fun ids s' => Underway c s s' ids ∧ s.place < s'.place) :
    Reads s (Parser.withScope scope p) s fun ids s' =>
      Underway c s s' ids ∧ s.place < s'.place := by
  refine .get <| .bind (R := fun _ s' => s' = { s with scope }) rfl ?_
  rintro - _ rfl
  refine .restoring ((reads { s with scope } { sound with }).mono ?_) fun e s' fails => ?_
  · rintro ids s' ⟨underway, lt⟩
    exact ⟨{
      valid := sound.toValid
      sound := { underway.sound with }
      onward := { underway.onward with }
      pending := underway.pending
      begun := fun lt => { underway.begun lt with } }, lt⟩
  · exact { fails with valid := { fails.valid with }, onward := { fails.onward with } }

theorem class_modifiers_takes : Takes 0 c Parser.classModifiers := by
  refine .loop 0 (fun modifiers origin s ids underway => ?_) _
  refine .bind (eat_reads underway rfl) ?_
  rintro isAbstract s₁ ⟨underway, le₁, lt₁⟩
  refine .ite (fun eaten => ⟨underway, lt₁ eaten⟩) fun _ => .bind (eat_reads underway rfl) ?_
  rintro isFinal s₂ ⟨underway, le₂, lt₂⟩
  refine .ite (fun eaten => ⟨underway, ?_⟩) fun _ => ⟨underway, Nat.le_trans le₁ le₂⟩
  exact Nat.lt_of_le_of_lt le₁ (lt₂ eaten)

theorem parent_class_takes : Takes 0 c Parser.parentClass := by
  intro origin s ids underway
  refine .bind (eat_reads underway rfl) ?_
  rintro extends_ s₁ ⟨underway, le₁, -⟩
  refine .ite (fun _ => .map ?_) fun _ => ⟨underway, le₁⟩
  refine (class_name_takes _ _ _ underway).mono fun _ _ holds => ⟨holds.1, ?_⟩
  exact Nat.le_trans le₁ (Nat.le_of_lt holds.2)

theorem types_behind_takes {word : Keyword} : Takes 0 c (Parser.typesBehind word) := by
  intro origin s ids underway
  refine .bind (eat_reads underway rfl) ?_
  rintro eaten s₁ ⟨underway, le₁, -⟩
  refine .ite (fun _ => ?_) fun _ => ⟨underway, le₁⟩
  refine (class_names_takes _ _ _ underway).mono fun _ _ holds => ⟨holds.1, ?_⟩
  exact Nat.le_trans le₁ (Nat.le_of_lt holds.2)

theorem class_declaration_reads (readers : Readers c.depth g) (sound : Sound c s) :
    Reads s (Parser.classDeclaration g) s (Made c s) := by
  refine .current <| .bind (class_modifiers_takes _ _ _ sound.underway) ?_
  rintro modifiers s₁ ⟨underway, le₁⟩
  refine .mark underway rfl ?_
  intro s₂ took
  have lt₂ := took.place_lt
  refine .bind (declared_name_reads took.underway) ?_
  rintro name s₃ ⟨underway, lt₃, named⟩
  apply parent_class_takes.behind underway
  intro parent s₄ underway onward le₄
  have named := named.later onward
  apply types_behind_takes.behind underway
  intro interfaces s₅ underway onward le₅
  have named := named.later onward
  refine .bind ((with_scope_reads underway.sound fun _ sound =>
    members_reads readers sound).from_ underway.onward) ?_
  rintro body s₆ ⟨more, lt₆⟩
  have named := named.later more.onward
  exact declare_reads (underway.then more) (by omega) rfl ⟨named.stands, named.clean⟩

theorem interface_declaration_reads (readers : Readers c.depth g) (sound : Sound c s)
    (word : s.token.kind = .keyword .interface_) :
    Reads s (Parser.interfaceDeclaration g) s (Made c s) := by
  apply Reads.advance sound.underway (by rw [word]; rfl)
  intro s₁ took
  have lt := took.place_lt
  refine .bind (declared_name_reads took.underway) ?_
  rintro name s₂ ⟨underway, lt₂, named⟩
  apply types_behind_takes.behind underway
  intro parents s₃ underway onward le₃
  have named := named.later onward
  refine .bind ((with_scope_reads underway.sound fun _ sound =>
    members_reads readers sound).from_ underway.onward) ?_
  rintro body s₄ ⟨more, lt₄⟩
  have named := named.later more.onward
  exact declare_reads (underway.then more) (by omega) rfl ⟨named.stands, named.clean⟩

theorem trait_declaration_reads (readers : Readers c.depth g) (sound : Sound c s)
    (word : s.token.kind = .keyword .trait_) :
    Reads s (Parser.traitDeclaration g) s (Made c s) := by
  apply Reads.advance sound.underway (by rw [word]; rfl)
  intro s₁ took
  have lt := took.place_lt
  refine .bind (declared_name_reads took.underway) ?_
  rintro name s₂ ⟨underway, lt₂, named⟩
  refine .bind ((with_scope_reads underway.sound fun _ sound =>
    members_reads readers sound).from_ underway.onward) ?_
  rintro body s₃ ⟨more, lt₃⟩
  have named := named.later more.onward
  exact declare_reads (underway.then more) (by omega) rfl ⟨named.stands, named.clean⟩

theorem function_body_reads (readers : Readers c.depth g) (sound : Sound c s) :
    Reads s (Parser.functionBody g) s fun ids s' => Underway c s s' ids ∧ s.place < s'.place := by
  apply Reads.below sound.underway (formal_parameters_reads readers sound).made
  intro parameters s₁ underway lt₁
  apply return_type_takes.then underway
  intro _ s₂ underway le₂
  apply Reads.below underway (block_reads readers underway.sound).made
  intro body s₃ underway lt₃
  exact ⟨underway, by omega⟩

theorem function_declaration_reads (readers : Readers c.depth g) (sound : Sound c s)
    (word : s.token.kind = .keyword .function_) :
    Reads s (Parser.functionDeclaration g) s (Made c s) := by
  apply Reads.advance sound.underway (by rw [word]; rfl)
  intro s₁ took
  have lt := took.place_lt
  refine .bind (eat_operator_reads took.underway) ?_
  rintro byRef s₂ ⟨underway, le₂, -⟩
  refine .bind (declared_name_reads underway) ?_
  rintro name s₃ ⟨underway, lt₃, named⟩
  refine .bind ((with_scope_reads underway.sound fun _ sound =>
    function_body_reads readers sound).from_ underway.onward) ?_
  rintro body s₄ ⟨more, lt₄⟩
  have named := named.later more.onward
  exact declare_reads (underway.then more) (by omega) rfl ⟨named.stands, named.clean⟩

end PhpAnalyser
