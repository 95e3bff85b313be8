import PhpAnalyser.Grammar.Expression
import PhpAnalyser.Proofs.Grammar.Expression
import PhpAnalyser.Proofs.Lockstep.Naming
/-!
The productions of expressions, read side by side. A semicolon cannot stand inside an expression
but in the braces of a function, and there the text of its own ends too early.
-/
namespace PhpAnalyser

def Hale (depth : Nat) (t : ParserState) : Prop := ∃ c : Setting, c.depth = depth ∧ Sound c t

/-- No token is left to the first reader, while a conditional of the stretch may have gone on behind
it for the second. If the second was sound, it has an error of the stretch if the first has. -/
def Frayed (E : Excerpt) (sound : Prop) (s t : ParserState) : Prop :=
  sound → E.Torn ∧ (s.errors ≠ [] → E.Told t.errors)

structure Lockstep (E : Excerpt) (depth : Nat) (g : Nested) : Prop where
  readers : Readers depth g
  expression : ∀ least, Steady E (g.expression least) Any
  statement : ∀ s t, Twin E s t →
    Meets E g.statement g.statement s t (Closes E (Frayed E (Hale depth t)) Any)
  starved : ∀ least s, s.token.kind = .eof → Starved (g.expression least) s

variable {E : Excerpt} {depth : Nat} {g : Nested} {s t : ParserState}

theorem expression_steady (nested : Lockstep E depth g) : Steady E (Parser.expression g) Any :=
  nested.expression 0

theorem expressions_steady (nested : Lockstep E depth g) : Steady E (Parser.expressions g) Any :=
  comma_separated_steady (expression_steady nested)

theorem condition_steady (nested : Lockstep E depth g) : Steady E (Parser.condition g) Any := by
  intro s t twin
  refine .mark twin (by nofun) fun s t twin => ?_
  refine (expression_steady nested).then twin fun inner s inner' t twin => ?_
  exact .mark twin (by nofun) fun s t twin => .pure ⟨twin, trivial⟩

theorem braced_steady (nested : Lockstep E depth g) : Steady E (Parser.braced g) Any := by
  intro s t twin
  refine (expression_steady nested).then twin fun inner s inner' t twin => ?_
  exact .mark twin (by nofun) fun s t twin => .pure ⟨twin, trivial⟩

theorem statements_free (nested : Lockstep E depth g) {stop : Token → Bool}
    (alike : ∀ a b : Token, a.Like b → stop a = stop b) : Free E (Parser.statements g stop) := by
  refine fun s t twin => recovering_free alike (fun s t twin => ?_) twin
  refine (nested.statement s t twin).fall (fun r s ends => (Quiet.pure _).idle ends) ?_
  exact fun r s r' t twin _ => .pure (.inr ⟨twin.toNear, trivial⟩)

theorem block_steady (nested : Lockstep E depth g) : Steady E (Parser.block g) Any := by
  intro s t twin
  refine (expect_steady (by nofun)).then twin fun start s start' t twin => ?_
  refine (statements_free nested (fun a b like => by rw [like.kind]) s t twin).shut ?_ ?_
  · exact fun body s ends => starved_mark ends (by nofun)
  · exact fun body s body' t twin _ => .mark twin (by nofun) fun s t twin => finish_meets twin

theorem promotes_steady : Steady E Parser.promotes fun a s b _ =>
    a = b ∧ (a → s.token.kind ≠ .semicolon) := by
  intro s t twin
  refine .current ?_
  rw [← twin.like.kind]
  split
  next kind => exact .pure ⟨twin, rfl, fun _ => by rw [kind]; nofun⟩
  next kind => exact .pure ⟨twin, rfl, fun _ => by rw [kind]; nofun⟩
  next kind => exact .pure ⟨twin, rfl, fun _ => by rw [kind]; nofun⟩
  next kind =>
    have other : s.token.kind ≠ .semicolon := by rw [kind]; nofun
    refine .ahead <| .pure ⟨twin, ?_, fun _ => other⟩
    rw [twin.like.text, (twin.ahead other).kind]
  next => exact .pure ⟨twin, rfl, fun no => nomatch no⟩

theorem promotions_steady : Steady E Parser.promotions Any := by
  intro s t twin
  refine .loop (R := Any) twin trivial fun _ _ s t twin _ => ?_
  refine (promotes_steady s t twin).bind ?_
  rintro promoted s _ t twin ⟨rfl, other⟩
  refine .ite .rfl (fun isPromoted => ?_) fun _ => .pure ⟨twin, trivial⟩
  exact .skip twin (other isPromoted) fun twin => .pure ⟨twin, trivial⟩

theorem parameter_hint_steady : Steady E Parser.parameterHint Any := by
  intro s t twin
  refine .current ?_
  rw [← twin.like.kind, ← twin.like.is_operator]
  exact .ite .rfl (fun _ => .pure ⟨twin, trivial⟩) fun _ =>
    type_hint_steady.any.map (f := some) s t twin

theorem formal_parameter_steady (nested : Lockstep E depth g) :
    Steady E (Parser.formalParameter g) Any := by
  intro s t twin
  refine .current <| promotions_steady.then twin fun _ s _ t twin => ?_
  refine parameter_hint_steady.then twin fun hint s hint' t twin => ?_
  refine eat_operator_steady.same twin fun byRef s t twin => ?_
  refine (eat_steady (by nofun)).same twin fun variadic s t twin => ?_
  refine (expect_steady (by nofun)).then twin fun parameter s parameter' t twin => ?_
  refine eat_operator_steady.same twin fun hasValue s t twin => ?_
  refine (only_if_steady (expression_steady nested)).then twin fun value s value' t twin => ?_
  exact finish_meets twin

theorem formal_parameters_steady (nested : Lockstep E depth g) :
    Steady E (Parser.formalParameters g) Any := by
  intro s t twin
  refine (expect_steady (by nofun)).then twin fun start s start' t twin => ?_
  refine (comma_list_steady (formal_parameter_steady nested)).then twin fun _ s _ t twin => ?_
  exact .mark twin (by nofun) fun s t twin => finish_meets twin

theorem argument_name_steady : Steady E Parser.argumentName Any := by
  intro s t twin
  refine .current <| .ahead <| .ite ?_ (fun isName => ?_) fun _ => .pure ⟨twin, trivial⟩
  · rw [twin.guarded (p := Parser.isWord) (q := fun kind => kind = .colon) rfl]
  rw [Bool.and_eq_true, decide_eq_true_eq, peek_one twin.more] at isName
  refine .skip twin (fun no => ?_) fun twin => skip_meets twin (by rw [isName.2]; nofun)
  rw [no] at isName
  cases isName.1

theorem argument_steady (nested : Lockstep E depth g) : Steady E (Parser.argument g) Any := by
  intro s t twin
  refine (eat_steady (by nofun)).discard.then twin fun _ s _ t twin => ?_
  refine eat_operator_steady.discard.then twin fun _ s _ t twin => ?_
  refine argument_name_steady.then twin fun _ s _ t twin => ?_
  exact expression_steady nested s t twin

theorem arguments_steady (nested : Lockstep E depth g) : Steady E (Parser.arguments g) Any := by
  intro s t twin
  refine (expect_steady (by nofun)).then twin fun start s start' t twin => ?_
  refine Meets.bind (R := Any) (.loop (R := Any) twin trivial fun values values' s t twin _ => ?_)
    fun values s values' t twin _ => ?_
  · refine .check twin (fun _ => .pure ⟨twin, trivial⟩) fun _ => .test <| .ahead <| .ite ?_ ?_ ?_
    · rw [twin.guarded (p := fun kind => kind = .ellipsis)
        (q := fun kind => kind = .rightParen) rfl]
    · intro isCallable
      rw [Bool.and_eq_true, decide_eq_true_eq] at isCallable
      exact .skip twin (by rw [isCallable.1]; nofun) fun twin => .pure ⟨twin, trivial⟩
    · intro _
      refine (argument_steady nested).then twin fun value s value' t twin => ?_
      refine (eat_steady (by nofun)).same twin fun eaten s t twin => ?_
      exact .ite .rfl (fun _ => .pure ⟨twin, trivial⟩) fun _ => .pure ⟨twin, trivial⟩
  · exact .mark twin (by nofun) fun s t twin => finish_meets twin

/-- A dollar in front takes a level of fuel, of which either reader may have more. -/
theorem variable_within_meets (nested : Lockstep E depth g) (fuel fuel' : Nat)
    (twin : Twin E s t) :
    Meets E (Parser.variableWithin g fuel) (Parser.variableWithin g fuel') s t
      (Steadily E Alike) := by
  induction fuel generalizing fuel' s t with
  | zero => exact fun _ _ => trivial
  | succ fuel ih =>
    cases fuel' with
    | zero => exact fun _ no => nomatch no
    | succ fuel' =>
      refine .current ?_
      rw [← twin.like.kind]
      refine .ite .rfl (fun kind => ?_) fun _ => .mark twin (by nofun) fun s t twin => ?_
      · refine .skip twin (by rw [kind]; nofun) fun twin => ?_
        exact push_builds.meets push_builds twin rfl rfl
      · refine (eat_steady (by nofun)).same twin fun isBraced s t twin => ?_
        refine Meets.bind (R := Any) ?_ fun inner s inner' t twin _ => ?_
        · exact .ite .rfl (fun _ => braced_steady nested s t twin) fun _ =>
            (ih fuel' twin).any
        · exact finish_builds.meets finish_builds twin rfl rfl

theorem variable_expression_steady (nested : Lockstep E depth g) :
    Steady E (Parser.variableExpression g) Alike :=
  fun _ _ twin => variable_within_meets nested _ _ twin

theorem uses_class_reference (name : String) :
    (NodeKind.classReference name).uses = (false, false) := rfl

theorem name_expression_steady : Steady E Parser.nameExpression Alike := by
  intro s t twin
  refine .name twin fun written span span' s t twin => .get <| .current ?_
  rw [← twin.like.kind]
  cases s.token.kind with
  | doubleColon =>
    exact push_builds.meets push_builds twin (uses_class_reference _) (uses_class_reference _)
  | _ => exact push_builds.meets push_builds twin rfl rfl

theorem class_reference_steady : Steady E Parser.classReference Alike := by
  intro s t twin
  refine .name twin fun written span span' s t twin => .get ?_
  exact push_builds.meets push_builds twin (uses_class_reference _) (uses_class_reference _)

theorem parenthesized_steady (nested : Lockstep E depth g) :
    Steady E (Parser.parenthesized g) Alike := by
  intro s t twin
  refine .current <| (condition_steady nested).then twin fun inner s inner' t twin => ?_
  exact finish_builds.meets finish_builds twin rfl rfl

theorem call_operands_steady (nested : Lockstep E depth g) :
    Steady E (Parser.callOperands g) Any := by
  intro s t twin
  refine .mark twin (by nofun) fun s t twin => ?_
  refine (comma_list_steady (expression_steady nested)).then twin fun _ s _ t twin => ?_
  exact .mark twin (by nofun) fun s t twin => .pure ⟨twin, trivial⟩

theorem array_element_steady (nested : Lockstep E depth g) :
    Steady E (Parser.arrayElement g) Any := by
  intro s t twin
  refine .current <| (eat_steady (by nofun)).discard.then twin fun _ s _ t twin => ?_
  refine eat_operator_steady.same twin fun byRef s t twin => ?_
  refine (expression_steady nested).then twin fun first s first' t twin => ?_
  refine Meets.bind (R := Same) ?_ ?_
  · exact .ite .rfl (fun _ => .pure ⟨twin, rfl⟩) fun _ => eat_steady (by nofun) s t twin
  rintro isKey s _ t twin ⟨⟩
  refine .ite .rfl (fun _ => ?_) fun _ => finish_meets twin
  refine eat_operator_steady.same twin fun byRef s t twin => ?_
  refine (expression_steady nested).then twin fun value s value' t twin => ?_
  exact finish_meets twin

theorem array_elements_steady (nested : Lockstep E depth g) {close : TokenKind} :
    Steady E (Parser.arrayElements g close) Any := by
  intro s t twin
  refine .loop (R := Any) twin trivial fun elements elements' s t twin _ => ?_
  refine .check twin (fun _ => .pure ⟨twin, trivial⟩) fun _ => ?_
  refine (eat_steady (by nofun)).same twin fun eaten s t twin => ?_
  refine .ite .rfl (fun _ => .pure ⟨twin, trivial⟩) fun _ => ?_
  refine (array_element_steady nested).then twin fun element s element' t twin => ?_
  refine (eat_steady (by nofun)).same twin fun eaten s t twin => ?_
  exact .ite .rfl (fun _ => .pure ⟨twin, trivial⟩) fun _ => .pure ⟨twin, trivial⟩

theorem short_array_steady (nested : Lockstep E depth g) {start start' : Span}
    (twin : Twin E s t) :
    Meets E (Parser.shortArray g start) (Parser.shortArray g start') s t (Steadily E Alike) := by
  refine .mark twin (by nofun) fun s t twin => ?_
  refine (array_elements_steady nested).then twin fun _ s _ t twin => ?_
  exact .mark twin (by nofun) fun s t twin => finish_builds.meets finish_builds twin rfl rfl

theorem long_array_steady (nested : Lockstep E depth g) {start start' : Span}
    (twin : Twin E s t) :
    Meets E (Parser.longArray g start) (Parser.longArray g start') s t (Steadily E Alike) := by
  refine .mark twin (by nofun) fun s t twin => ?_
  refine (array_elements_steady nested).then twin fun _ s _ t twin => ?_
  exact .mark twin (by nofun) fun s t twin => finish_builds.meets finish_builds twin rfl rfl

theorem closure_uses_meets (nested : Lockstep E depth g) (twin : Twin E s t)
    (word : s.token.kind = .keyword .use_) :
    Meets E (Parser.closureUses g) (Parser.closureUses g) s t (Steadily E Any) := by
  refine .advance twin (by rw [word]; nofun) fun _ twin => .mark twin (by nofun) fun s t twin => ?_
  refine (comma_list_steady fun s t twin => ?_).then twin fun _ s _ t twin => ?_
  · refine eat_operator_steady.discard.then twin fun _ s _ t twin => ?_
    exact (variable_expression_steady nested).any s t twin
  · exact .mark twin (by nofun) fun s t twin => finish_meets twin

theorem closure_meets (nested : Lockstep E depth g) {start start' : Span} {isStatic : Bool}
    (twin : Twin E s t) :
    Meets E (Parser.closure g start isStatic) (Parser.closure g start' isStatic) s t
      (Steadily E Alike) := by
  refine .mark twin (by nofun) fun s t twin => ?_
  refine eat_operator_steady.same twin fun byRef s t twin => ?_
  refine (formal_parameters_steady nested).then twin fun parameters s parameters' t twin => ?_
  refine .test ?_
  rw [← twin.like.kind]
  refine Meets.bind (R := Any) (.onlyIf twin (fun word => ?_) fun _ => trivial) ?_
  · exact closure_uses_meets nested twin (of_decide_eq_true word)
  intro captured s captured' t twin _
  refine return_type_steady.then twin fun _ s _ t twin => ?_
  refine (block_steady nested).then twin fun body s body' t twin => ?_
  exact finish_builds.meets finish_builds twin rfl rfl

theorem arrow_function_meets (nested : Lockstep E depth g) {start start' : Span} {isStatic : Bool}
    (twin : Twin E s t) (other : s.token.kind ≠ .semicolon) :
    Meets E (Parser.arrowFunction g start isStatic) (Parser.arrowFunction g start' isStatic) s t
      (Steadily E Alike) := by
  refine .skip twin other fun twin => ?_
  refine eat_operator_steady.same twin fun byRef s t twin => ?_
  refine (formal_parameters_steady nested).then twin fun parameters s parameters' t twin => ?_
  refine return_type_steady.then twin fun _ s _ t twin => .mark twin (by nofun) fun s t twin => ?_
  refine (nested.expression _).then twin fun body s body' t twin => ?_
  exact finish_builds.meets finish_builds twin rfl rfl

/-- Behind its semicolon a text of its own has no parameters. -/
theorem starved_arrow_function {start : Span} {isStatic : Bool} (twin : Twin E s t)
    (semicolon : s.token.kind = .semicolon) : Starved (Parser.arrowFunction g start isStatic) s := by
  refine Spends.bind (Q := fun _ s' => s'.token.kind = .eof) (twin.last semicolon) ?_
  intro _ s ends
  exact Starved.step (eat_operator_ends ends) (starved_expect ends (by nofun)).bind.bind

theorem late_target_within {keyword : LateKeyword} {own whole : Option TypeScope}
    {target : Option String} (within_ : Within own whole)
    (found : Parser.lateTarget keyword own = .ok target) :
    ∃ target', Parser.lateTarget keyword whole = .ok target' := by
  cases own with
  | none => cases found
  | some a =>
    obtain ⟨b, rfl, isClass, parent⟩ := within_ a rfl
    cases keyword with
    | parent_ =>
      simp only [Parser.lateTarget, ← isClass] at found ⊢
      split at found
      · rename_i same
        rw [if_pos same]
        cases own : a.parent with
        | none => simp [own] at found
        | some name =>
          rw [own] at parent
          obtain ⟨name', there⟩ := Option.isSome_iff_exists.mp parent.symm
          exact ⟨some name', by rw [there]⟩
      · rename_i same
        exact ⟨none, by rw [if_neg same]⟩
    | _ => exact ⟨_, rfl⟩

theorem uses_late_bound (reference : LateBound) :
    (NodeKind.lateBound reference).uses = (false, false) := rfl

theorem late_bound_meets (twin : Twin E s t) (other : s.token.kind ≠ .semicolon) :
    Meets E Parser.lateBound Parser.lateBound s t (Steadily E Alike) := by
  refine .advance twin other fun like twin => .get ?_
  rw [← like.kind]
  split
  next target own =>
    obtain ⟨target', whole⟩ := late_target_within twin.scope own
    rw [whole]
    exact push_builds.meets push_builds twin (uses_late_bound _) (uses_late_bound _)
  next reason own =>
    intro _ _ recoverable
    cases recoverable

theorem literal_meets {kind : LiteralKind} (twin : Twin E s t) (other : s.token.kind ≠ .semicolon) :
    Meets E (Parser.literal kind) (Parser.literal kind) s t (Steadily E Alike) := by
  refine .advance twin other fun like twin => ?_
  rw [like.text]
  exact push_builds.meets push_builds twin rfl rfl

theorem exit_operands_steady (nested : Lockstep E depth g) :
    Steady E (Parser.exitOperands g) Any := by
  intro s t twin
  refine .check twin (fun _ => ?_) fun _ => .pure ⟨twin, trivial⟩
  exact call_operands_steady nested s t twin

theorem keyword_primary_meets (nested : Lockstep E depth g) {word : Keyword} {start start' : Span}
    (twin : Twin E s t) (kind : s.token.kind = .keyword word) :
    Meets E (Parser.keywordPrimary g word start) (Parser.keywordPrimary g word start') s t
      (Steadily E Alike) := by
  have other : s.token.kind ≠ .semicolon := by rw [kind]; nofun
  have ahead := twin.ahead other
  refine .ahead ?_
  rw [← ahead.kind, Parser.isArrowWord, Parser.isArrowWord, ← ahead.text, peek_one twin.more]
  split
  · exact .ite .rfl (fun _ => name_expression_steady s t twin) fun _ => .unexpected twin
  · refine .ite .rfl (fun _ => ?_) fun _ => .ite .rfl (fun _ => ?_) fun _ => ?_
    · exact .skip twin other fun twin => closure_meets nested twin
    · refine .skip twin other fun twin => ?_
      by_cases semicolon : s.advance.token.kind = .semicolon
      · exact .of_starved (starved_arrow_function twin semicolon)
      · exact arrow_function_meets nested twin semicolon
    · exact late_bound_meets twin other
  · exact late_bound_meets twin other
  · exact late_bound_meets twin other
  · exact closure_meets nested twin
  · refine .ite .rfl (fun _ => ?_) fun _ => .unexpected twin
    exact .skip twin other fun twin => long_array_steady nested twin
  · refine .skip twin other fun twin => ?_
    refine (call_operands_steady nested).then twin fun _ s _ t twin => ?_
    exact finish_builds.meets finish_builds twin rfl rfl
  · refine .skip twin other fun twin => ?_
    refine (call_operands_steady nested).then twin fun _ s _ t twin => ?_
    exact finish_builds.meets finish_builds twin rfl rfl
  · refine .skip twin other fun twin => ?_
    refine (exit_operands_steady nested).then twin fun _ s _ t twin => ?_
    exact finish_builds.meets finish_builds twin rfl rfl
  · refine .skip twin other fun twin => ?_
    refine (exit_operands_steady nested).then twin fun _ s _ t twin => ?_
    exact finish_builds.meets finish_builds twin rfl rfl
  · exact .unexpected twin

theorem primary_steady (nested : Lockstep E depth g) : Steady E (Parser.primary g) Alike := by
  intro s t twin
  refine .current ?_
  rw [← twin.like.kind]
  split
  next => exact variable_expression_steady nested s t twin
  next => exact variable_expression_steady nested s t twin
  next kind => exact literal_meets twin (by rw [kind]; nofun)
  next kind => exact literal_meets twin (by rw [kind]; nofun)
  next kind => exact literal_meets twin (by rw [kind]; nofun)
  next kind =>
    have other : s.token.kind ≠ .semicolon := by rw [kind]; nofun
    have ahead := twin.ahead other
    refine .ahead ?_
    rw [← ahead.kind, ← ahead.is_operator, Parser.isArrowWord, Parser.isArrowWord, twin.like.text]
    refine .ite .rfl (fun _ => ?_) fun _ => name_expression_steady s t twin
    exact arrow_function_meets nested twin other
  next => exact name_expression_steady s t twin
  next => exact short_array_steady nested twin
  next => exact parenthesized_steady nested s t twin
  next word kind => exact keyword_primary_meets nested twin kind
  next => exact .unexpected twin

section Chain

variable {base base' : Nat}

theorem array_index_meets (nested : Lockstep E depth g) (twin : Twin E s t)
    (other : s.token.kind ≠ .semicolon) :
    Meets E (Parser.arrayIndex g base) (Parser.arrayIndex g base') s t (Steadily E Alike) := by
  refine .skip twin other fun twin => .test ?_
  rw [← twin.like.kind]
  refine (only_if_steady (expression_steady nested)).then twin fun index s index' t twin => ?_
  exact .mark twin (by nofun) fun s t twin => wrap_builds.meets wrap_builds twin rfl rfl

theorem string_index_meets (nested : Lockstep E depth g) (twin : Twin E s t)
    (other : s.token.kind ≠ .semicolon) :
    Meets E (Parser.stringIndex g base) (Parser.stringIndex g base') s t (Steadily E Alike) := by
  refine .skip twin other fun twin => ?_
  refine (braced_steady nested).then twin fun index s index' t twin => ?_
  exact wrap_builds.meets wrap_builds twin rfl rfl

theorem member_word_steady : Steady E Parser.memberWord Written := by
  intro s t twin
  refine .check twin (fun kind => ?_) fun _ => member_name_steady s t twin
  exact advance_meets twin (by rw [kind]; nofun)

theorem member_target_steady (nested : Lockstep E depth g) :
    Steady E (Parser.memberTarget g) Same := by
  intro s t twin
  refine (eat_steady (by nofun)).same twin fun isBraced s t twin => ?_
  refine .ite .rfl (fun _ => ?_) fun _ => ?_
  · exact (braced_steady nested).discard.then twin fun _ s _ t twin => .pure ⟨twin, rfl⟩
  · refine (member_word_steady s t twin).bind fun token s token' t twin like => ?_
    exact .pure ⟨twin, by rw [Same, like.kind, like.text]⟩

theorem selected_member_steady (nested : Lockstep E depth g) {isStatic : Bool} :
    Steady E (Parser.selectedMember g isStatic) Any := by
  intro s t twin
  refine .current <| (member_target_steady nested).same twin ?_
  rintro ⟨name, isVariable⟩ s t twin
  refine .check twin (fun _ => ?_) fun _ => ?_
  · exact (arguments_steady nested).then twin fun values s values' t twin => finish_meets twin
  · refine .ite .rfl (fun no => nomatch no) fun _ => ?_
    exact .ite .rfl (fun _ => finish_meets twin) fun _ => finish_meets twin

theorem member_access_meets (nested : Lockstep E depth g) {isStatic : Bool} (twin : Twin E s t)
    (other : s.token.kind ≠ .semicolon) :
    Meets E (Parser.memberAccess g isStatic base) (Parser.memberAccess g isStatic base') s t
      (Steadily E Alike) := by
  refine .skip twin other fun twin => ?_
  refine (selected_member_steady nested).then twin fun selected s selected' t twin => ?_
  exact wrap_builds.meets wrap_builds twin rfl rfl

theorem function_call_meets (nested : Lockstep E depth g) (twin : Twin E s t) :
    Meets E (Parser.functionCall g base) (Parser.functionCall g base') s t (Steadily E Alike) := by
  refine (arguments_steady nested).then twin fun values s values' t twin => ?_
  exact wrap_builds.meets wrap_builds twin rfl rfl

theorem postfixed_meets {kind : NodeKind} (twin : Twin E s t)
    (other : s.token.kind ≠ .semicolon) :
    Meets E (Parser.postfixed kind base) (Parser.postfixed kind base') s t (Steadily E Alike) :=
  .skip twin other fun twin => wrap_builds.meets wrap_builds twin rfl rfl

theorem chain_link_meets (nested : Lockstep E depth g) (twin : Twin E s t)
    (alike : Alike base s base' t) :
    Meets E (Parser.chainLink g base) (Parser.chainLink g base') s t
      (Stepping E Alike (Twin E) Alike) := by
  have goes {p q : Parser Nat} (meets : Meets E p q s t (Steadily E Alike)) :
      Meets E (do return .yield (← p)) (do return .yield (← q)) s t
        (Stepping E Alike (Twin E) Alike) :=
    meets.bind fun i s j t twin alike => .pure ⟨twin, alike⟩
  have ends {p q : Parser Nat} (meets : Meets E p q s t (Steadily E Alike)) :
      Meets E (do return .done (← p)) (do return .done (← q)) s t
        (Stepping E Alike (Twin E) Alike) :=
    meets.bind fun i s j t twin alike => .pure ⟨twin, alike⟩
  refine .current ?_
  rw [← twin.like.kind, ← twin.like.text]
  split
  next kind => exact goes (array_index_meets nested twin (by rw [kind]; nofun))
  next kind =>
    rw [← twin.like.trivia kind]
    refine .kindOf alike fun kind' kind'' indexable _ => ?_
    rw [← indexable]
    refine .ite .rfl (fun _ => ?_) fun _ => .pure ⟨twin, alike⟩
    exact goes (string_index_meets nested twin (by rw [kind]; nofun))
  next kind => exact goes (member_access_meets nested twin (by rw [kind]; nofun))
  next kind => exact goes (member_access_meets nested twin (by rw [kind]; nofun))
  next => exact goes (function_call_meets nested twin)
  next kind =>
    refine .ite .rfl (fun _ => ?_) fun _ => .ite .rfl (fun _ => ?_) fun _ => .pure ⟨twin, alike⟩
    · exact ends (postfixed_meets twin (by rw [kind]; nofun))
    · exact ends (postfixed_meets twin (by rw [kind]; nofun))
  next => exact .pure ⟨twin, alike⟩

theorem chain_meets (nested : Lockstep E depth g) (twin : Twin E s t)
    (alike : Alike base s base' t) :
    Meets E (Parser.chain g base) (Parser.chain g base') s t (Steadily E Alike) :=
  .loop twin alike fun _ _ _ _ twin alike => chain_link_meets nested twin alike

theorem property_word_steady : Steady E Parser.propertyWord Any := by
  intro s t twin
  refine member_word_steady.then twin fun token s token' t twin => ?_
  exact push_builds.quiet.meets push_builds.quiet twin

theorem class_property_meets {isStatic : Bool} (twin : Twin E s t)
    (other : s.token.kind ≠ .semicolon) :
    Meets E (Parser.classProperty isStatic base) (Parser.classProperty isStatic base') s t
      (Steadily E Any) := by
  refine .skip twin other fun twin => ?_
  refine property_word_steady.then twin fun selected s selected' t twin => ?_
  exact wrap_builds.quiet.meets wrap_builds.quiet twin

theorem class_link_meets (nested : Lockstep E depth g) (twin : Twin E s t) :
    Meets E (Parser.classLink g base) (Parser.classLink g base') s t
      (Stepping E Any (Twin E) Any) := by
  have goes {p q : Parser Nat} (meets : Meets E p q s t (Steadily E Any)) :
      Meets E (do return .yield (← p)) (do return .yield (← q)) s t
        (Stepping E Any (Twin E) Any) :=
    meets.bind fun i s j t twin _ => .pure ⟨twin, trivial⟩
  have same := twin.guarded (p := fun kind => kind = .doubleColon)
    (q := fun kind => kind = .variable) rfl
  refine .current <| .ite (by rw [twin.like.kind]) (fun kind => ?_) fun _ => ?_
  · exact goes (array_index_meets nested twin (by rw [kind]; nofun)).any
  refine .ite (by rw [twin.like.kind]) (fun kind => ?_) fun _ => .ahead ?_
  · exact goes (class_property_meets twin (by rw [kind]; nofun))
  refine .ite (by rw [same]) (fun isStatic => ?_) fun _ => .pure ⟨twin, trivial⟩
  rw [Bool.and_eq_true, decide_eq_true_eq] at isStatic
  exact goes (class_property_meets twin (by rw [isStatic.1]; nofun))

end Chain

theorem dynamic_class_steady (nested : Lockstep E depth g) :
    Steady E (Parser.dynamicClass g) Any := by
  intro s t twin
  refine (variable_expression_steady nested).then twin fun base s base' t twin => ?_
  exact .loop (R := Any) twin trivial fun _ _ _ _ twin _ => class_link_meets nested twin

theorem new_target_steady (nested : Lockstep E depth g) : Steady E (Parser.newTarget g) Any := by
  intro s t twin
  refine .current ?_
  rw [← twin.like.kind]
  split
  next => exact class_reference_steady.any s t twin
  next => exact class_reference_steady.any s t twin
  next => exact class_reference_steady.any s t twin
  next => exact dynamic_class_steady nested s t twin
  next => exact dynamic_class_steady nested s t twin
  next => exact (parenthesized_steady nested).any s t twin
  next word _ kind =>
    refine .ite .rfl (fun _ => ?_) fun _ => .unexpected twin
    exact (late_bound_meets twin (by rw [kind]; nofun)).any
  next => exact .unexpected twin

theorem allocation_meets (nested : Lockstep E depth g) (twin : Twin E s t)
    (other : s.token.kind ≠ .semicolon) :
    Meets E (Parser.allocation g) (Parser.allocation g) s t (Steadily E Alike) := by
  refine .advance twin other fun _ twin => ?_
  refine (new_target_steady nested).then twin fun target s target' t twin => .test ?_
  rw [← twin.like.kind]
  refine (only_if_steady (arguments_steady nested)).then twin fun values s values' t twin => ?_
  exact finish_builds.meets finish_builds twin rfl rfl

theorem assignment_meets (nested : Lockstep E depth g) {target target' : Nat} (twin : Twin E s t)
    (other : s.token.kind ≠ .semicolon) :
    Meets E (Parser.assignment g target) (Parser.assignment g target') s t (Steadily E Any) := by
  refine .advance twin other fun like twin => ?_
  rw [← like.text]
  refine Meets.bind (R := Same) ?_ ?_
  · exact .ite .rfl (fun _ => eat_operator_steady _ _ twin) fun _ => .pure ⟨twin, rfl⟩
  rintro byRef s _ t twin ⟨⟩
  refine (nested.expression _).then twin fun value s value' t twin => ?_
  exact wrap_builds.quiet.meets wrap_builds.quiet twin

theorem assignable_steady (nested : Lockstep E depth g) : Steady E (Parser.assignable g) Any := by
  intro s t twin
  refine (primary_steady nested s t twin).bind fun base s base' t twin alike => ?_
  refine (chain_meets nested twin alike).bind fun target s target' t twin alike => .current ?_
  refine .kindOf alike fun kind kind' _ assignable => ?_
  rw [← twin.like.kind, ← twin.like.text, ← assignable]
  refine .ite .rfl (fun isOperator => ?_) fun _ => .pure ⟨twin, trivial⟩
  simp only [Bool.and_eq_true, decide_eq_true_eq] at isOperator
  exact assignment_meets nested twin (by rw [isOperator.1.1]; nofun)

theorem prefixed_meets (nested : Lockstep E depth g) {kind kind' : NodeKind} {power : Nat}
    (twin : Twin E s t) (other : s.token.kind ≠ .semicolon) :
    Meets E (Parser.prefixed g kind power) (Parser.prefixed g kind' power) s t
      (Steadily E Any) := by
  refine .advance twin other fun _ twin => ?_
  exact (nested.expression _).then twin fun operand s operand' t twin => finish_meets twin

theorem unary_steady (nested : Lockstep E depth g) : Steady E (Parser.unary g) Any := by
  intro s t twin
  refine .current ?_
  rw [← twin.like.kind, ← twin.like.text]
  split
  next kind =>
    split
    · exact prefixed_meets nested twin (by rw [kind]; nofun)
    · exact .unexpected twin
  next kind => exact prefixed_meets nested twin (by rw [kind]; nofun)
  next kind =>
    refine (allocation_meets nested twin (by rw [kind]; nofun)).bind ?_
    exact fun base s base' t twin alike => (chain_meets nested twin alike).any
  next kind => exact prefixed_meets nested twin (by rw [kind]; nofun)
  next kind => exact prefixed_meets nested twin (by rw [kind]; nofun)
  next kind => exact prefixed_meets nested twin (by rw [kind]; nofun)
  next kind => exact prefixed_meets nested twin (by rw [kind]; nofun)
  next kind => exact prefixed_meets nested twin (by rw [kind]; nofun)
  next kind => exact prefixed_meets nested twin (by rw [kind]; nofun)
  next => exact assignable_steady nested s t twin

theorem tested_type_steady (nested : Lockstep E depth g) {power : Nat} :
    Steady E (Parser.testedType g power) Any := by
  intro s t twin
  refine .current ?_
  rw [← twin.like.kind]
  split
  next => exact class_reference_steady.any s t twin
  next => exact class_reference_steady.any s t twin
  next word kind =>
    refine .ite .rfl (fun _ => ?_) fun _ => nested.expression _ s t twin
    exact (late_bound_meets twin (by rw [kind]; nofun)).any
  next => exact nested.expression _ s t twin

theorem middle_steady (nested : Lockstep E depth g) : Steady E (Parser.middle g) Any := by
  intro s t twin
  refine (eat_steady (by nofun)).same twin fun isShort s t twin => ?_
  refine .ite .rfl (fun _ => .pure ⟨twin, trivial⟩) fun _ => ?_
  refine (expression_steady nested).then twin fun middle s middle' t twin => ?_
  exact .mark twin (by nofun) fun s t twin => .pure ⟨twin, trivial⟩

theorem ternary_meets (nested : Lockstep E depth g) {left left' : Nat} (twin : Twin E s t)
    (other : s.token.kind ≠ .semicolon) :
    Meets E (Parser.ternary g left) (Parser.ternary g left') s t (Steadily E Any) := by
  refine .skip twin other fun twin => ?_
  refine (middle_steady nested).then twin fun middle s middle' t twin => ?_
  refine (nested.expression _).then twin fun right s right' t twin => ?_
  exact wrap_builds.quiet.meets wrap_builds.quiet twin

theorem right_operand_steady (nested : Lockstep E depth g) {op : String} {power : Nat} :
    Steady E (Parser.rightOperand g op power) Any := fun s t twin =>
  .ite .rfl (fun _ => tested_type_steady nested s t twin) fun _ => nested.expression _ s t twin

theorem joined_meets (nested : Lockstep E depth g) {op : String} {power left left' : Nat}
    (twin : Twin E s t) (other : s.token.kind ≠ .semicolon) :
    Meets E (Parser.joined g op power left) (Parser.joined g op power left') s t
      (Steadily E Any) := by
  refine .skip twin other fun twin => ?_
  refine (right_operand_steady nested).then twin fun right s right' t twin => ?_
  exact wrap_builds.quiet.meets wrap_builds.quiet twin

theorem operation_meets (nested : Lockstep E depth g) {least left left' : Nat}
    (twin : Twin E s t) :
    Meets E (Parser.operation g least left) (Parser.operation g least left') s t
      (Stepping E Any (Twin E) Any) := by
  have goes {p q : Parser Nat} (meets : Meets E p q s t (Steadily E Any)) :
      Meets E (do return .yield (← p)) (do return .yield (← q)) s t
        (Stepping E Any (Twin E) Any) :=
    meets.bind fun i s j t twin _ => .pure ⟨twin, trivial⟩
  refine .current <| .ite (by rw [twin.like.kind]) (fun kind => ?_) fun _ => ?_
  · refine .ite .rfl (fun _ => .pure ⟨twin, trivial⟩) fun _ => goes ?_
    exact ternary_meets nested twin (by rw [kind]; nofun)
  rw [← twin.like.operator]
  split
  next => exact .pure ⟨twin, trivial⟩
  next op power found =>
    refine .ite .rfl (fun _ => .pure ⟨twin, trivial⟩) fun _ => goes (joined_meets nested twin ?_)
    intro no
    rw [Token.operator?, no] at found
    cases found

theorem binary_steady (nested : Lockstep E depth g) {least : Nat} :
    Steady E (Parser.binary g least) Any := by
  intro s t twin
  refine (unary_steady nested).then twin fun left s left' t twin => ?_
  exact .loop (R := Any) twin trivial fun _ _ _ _ twin _ => operation_meets nested twin

/-! An expression starts with a token. -/

theorem starved_primary (ends : s.token.kind = .eof) : Starved (Parser.primary g) s := by
  refine Starved.current ?_
  rw [ends]
  exact starved_unexpected ends

theorem starved_unary (ends : s.token.kind = .eof) : Starved (Parser.unary g) s := by
  refine Starved.current ?_
  rw [ends]
  change Starved (Parser.assignable g) s
  exact (starved_primary ends).bind

theorem starved_binary {least : Nat} (ends : s.token.kind = .eof) :
    Starved (Parser.binary g least) s :=
  (starved_unary ends).bind

end PhpAnalyser
