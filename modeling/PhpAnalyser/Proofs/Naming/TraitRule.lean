import PhpAnalyser.Proofs.Grammar.Outcome
import PhpAnalyser.Proofs.Grammar.Yield
import PhpAnalyser.Proofs.Naming.Words
/-!
Rules for the methods of a used trait. Two tokens tell whether a rule starts with the name of a
trait, which is enough for a single word and for a name with a backslash in front.
-/
namespace PhpAnalyser

inductive Segments : List Token → String → Prop
  | last {t : Token} (word : Parser.isWord t.kind = true) : Segments [t] t.text
  | more {t b : Token} {ts : List Token} {name : String} (word : Parser.isWord t.kind = true)
      (joins : b.kind = .backslash) (rest : Segments ts name) :
      Segments (t :: b :: ts) (joinName t.text name)

inductive TraitName : List Token → String → Prop
  | simple {t : Token} (word : t.kind = .identifier) : TraitName [t] t.text
  | absolute {b : Token} {ts : List Token} {name : String} (root : b.kind = .backslash)
      (segments : Segments ts name) : TraitName (b :: ts) ("\\" ++ name)

theorem Segments.starts {ts : List Token} {name : String} (segments : Segments ts name) :
    ∃ t more, ts = t :: more ∧ Parser.isWord t.kind = true := by
  cases segments with
  | last word => exact ⟨_, _, rfl, word⟩
  | more word => exact ⟨_, _, rfl, word⟩

theorem TraitName.starts {ts : List Token} {name : String} (named : TraitName ts name) :
    ∃ t more, ts = t :: more ∧ (t.kind = .identifier ∨ t.kind = .backslash) := by
  cases named with
  | simple word => exact ⟨_, _, rfl, .inl word⟩
  | absolute root => exact ⟨_, _, rfl, .inr root⟩

theorem more_of_word {kind : TokenKind} (word : Parser.isWord kind = true) : kind ≠ .eof := by
  rintro rfl
  cases word

theorem IsSegment.not_ended {text : String} (is : IsSegment text) (written : String) :
    (written ++ text).toList.getLast? ≠ some '\\' := by
  have nonempty : text.toList ≠ [] := by simpa using is.nonempty
  rw [String.toList_append, List.getLast?_append, List.getLast?_eq_some_getLast nonempty,
    Option.some_or]
  intro same
  exact is.simple (Option.some.inj same ▸ List.getLast_mem nonempty)

section Reading

variable {s : ParserState} {ts rest : List Token} {ends : Token} {written name : String}

theorem name_step_word (ended : written.toList.getLast? = some '\\')
    (word : Parser.isWord s.token.kind = true) :
    Parser.nameStep written s = some (.ok (.yield (written ++ s.token.text)), s.advance) := by
  rw [Parser.nameStep, run_current, if_pos ended, if_pos word]
  rfl

theorem name_step_joint (ended : written.toList.getLast? ≠ some '\\')
    (joins : s.token.kind = .backslash) (word : Parser.isWord s.advance.token.kind = true) :
    Parser.nameStep written s = some (.ok (.yield (written ++ "\\")), s.advance) := by
  rw [Parser.nameStep, run_current, if_neg ended, run_ahead, peek_one (by rw [joins]; nofun),
    if_pos (by simp [joins, word])]
  rfl

theorem name_step_done (ended : written.toList.getLast? ≠ some '\\')
    (other : s.token.kind ≠ .backslash) :
    Parser.nameStep written s = some (.ok (.done written), s) := by
  rw [Parser.nameStep, run_current, if_neg ended, run_ahead, if_neg (by simp [other])]
  rfl

/-- Behind a backslash, the tail of a name takes all its segments. -/
theorem segments_yield (lettered : Lettered s.tokens) (segments : Segments ts name)
    (ahead : s.tokensAhead = ts ++ ends :: rest) (other : ends.kind ≠ .backslash)
    (ended : written.toList.getLast? = some '\\') (fuel : Nat) (enough : ts.length < fuel) :
    Yields (Parser.iterate Parser.nameStep fuel written) s fun all s' =>
      all = written ++ name ∧ Consumes ts s s' := by
  induction segments generalizing s written fuel with
  | @last t word =>
    obtain ⟨fuel, rfl⟩ : ∃ k, fuel = k + 2 := ⟨fuel - 2, by simp at enough; omega⟩
    obtain rfl := token_of_ahead ahead
    have takes : Consumes [s.token] s s.advance := .advance ahead (more_of_word word)
    have is := lettered.segment _ s.token_mem word
    have stops : s.advance.token.kind ≠ .backslash := by
      rwa [token_of_ahead (takes.left ahead)]
    exact .run (name_step_word ended word) <| .run (name_step_done (is.not_ended written) stops) <|
      .pure ⟨rfl, takes⟩
  | @more t b ts name word joins segments ih =>
    obtain ⟨fuel, rfl⟩ : ∃ k, fuel = k + 2 := ⟨fuel - 2, by simp at enough; omega⟩
    obtain rfl := token_of_ahead ahead
    have first : Consumes [s.token] s s.advance := .advance ahead (more_of_word word)
    obtain rfl := token_of_ahead (first.left ahead)
    have second : Consumes [s.advance.token] s.advance s.advance.advance :=
      .advance (first.left ahead) (by rw [joins]; nofun)
    have ahead' := second.left (first.left ahead)
    have is := lettered.segment _ s.token_mem word
    obtain ⟨t, more, rfl, follows⟩ := segments.starts
    rw [← token_of_ahead ahead'] at follows
    refine .run (name_step_word ended word) <|
      .run (name_step_joint (is.not_ended written) joins follows) ?_
    have lettered' : Lettered s.advance.advance.tokens := by rwa [tokens_advance, tokens_advance]
    refine (ih lettered' ahead' (by simp) fuel (by simpa using enough)).mono ?_
    rintro all s' ⟨rfl, takes⟩
    exact ⟨by simp [joinName, String.append_assoc], (first.trans second).trans takes⟩

theorem name_tail_yields {Q : String → ParserState → Prop}
    (loop : Yields (Parser.iterate Parser.nameStep (s.tokensAhead.length + 1) written) s Q) :
    Yields (Parser.nameTail written) s Q := by
  refine .remaining ?_
  rwa [ParserState.kindsAhead, List.length_map]

/-- The name of a trait is read whole. -/
theorem trait_name_yields (lettered : Lettered s.tokens) (named : TraitName ts written)
    (ahead : s.tokensAhead = ts ++ ends :: rest) (other : ends.kind ≠ .backslash) :
    Yields Parser.name s fun name s' => name.1 = written ∧ Consumes ts s s' := by
  refine .current <| .bind (R := fun head s' => Yields (Parser.nameTail head) s' fun all s'' =>
    all = written ∧ Consumes ts s s'') ?_ fun head s' tail => .bind tail fun all s'' holds =>
      .get <| .pure holds
  cases named with
  | @simple t word =>
    obtain rfl := token_of_ahead ahead
    have takes : Consumes [s.token] s s.advance := .advance ahead (by rw [word]; nofun)
    have stops : s.advance.token.kind ≠ .backslash := by
      rwa [token_of_ahead (takes.left ahead)]
    have is := lettered.segment _ s.token_mem (by rw [word]; rfl)
    have ended : s.token.text.toList.getLast? ≠ some '\\' := by simpa using is.not_ended ""
    refine .current <| .ahead <| .ite_neg (by rw [word]; simp) <| .ite_neg (by rw [word]; nofun) <|
      .ite_pos word <| .skip <| .pure <| name_tail_yields ?_
    exact .run (name_step_done ended stops) <| .pure ⟨rfl, takes⟩
  | @absolute b ts name root segments =>
    obtain rfl := token_of_ahead ahead
    have takes : Consumes [s.token] s s.advance := .advance ahead (by rw [root]; nofun)
    have ahead' : s.advance.tokensAhead = ts ++ ends :: rest := takes.left ahead
    refine .current <| .ahead <| .ite_neg (by rw [root]; simp) <| .ite_pos root <| .skip <|
      .pure <| name_tail_yields ?_
    refine (segments_yield (by rwa [tokens_advance]) segments ahead' other rfl _ ?_).mono ?_
    · rw [ahead', List.length_append, List.length_cons]
      omega
    · rintro all s' ⟨rfl, more⟩
      exact ⟨rfl, takes.trans more⟩

theorem class_name_yields (lettered : Lettered s.tokens) (named : TraitName ts written)
    (ahead : s.tokensAhead = ts ++ ends :: rest) (other : ends.kind ≠ .backslash) :
    Yields Parser.className s fun name s' =>
      name = s.names.resolve written ∧ Consumes ts s s' := by
  refine .bind (trait_name_yields lettered named ahead other) ?_
  rintro ⟨_, span⟩ s' ⟨rfl, takes⟩
  exact .get <| .pure ⟨by rw [takes.names], takes⟩

/-- A list of one trait. -/
theorem class_names_yields (lettered : Lettered s.tokens) (named : TraitName ts written)
    (ahead : s.tokensAhead = ts ++ ends :: rest) (other : ends.kind = .leftBrace) :
    Yields Parser.classNames s fun names s' =>
      names = [s.names.resolve written] ∧ Consumes ts s s' := by
  refine .remaining <| .bind (R := fun r s' => r = .done [s.names.resolve written] ∧
    Consumes ts s s') ?_ ?_
  · refine .bind (class_name_yields lettered named ahead (by rw [other]; nofun)) ?_
    rintro _ s' ⟨rfl, takes⟩
    have next := token_of_ahead (takes.left ahead)
    exact .eat_neg (by rw [next, other]; nofun) <| .ite_neg (by nofun) <| .pure ⟨rfl, takes⟩
  · rintro _ s' ⟨rfl, takes⟩
    exact .pure ⟨rfl, takes⟩

end Reading

/-- What a rule does that gives this word for a new name: the three words for a visibility are no
names. -/
def newNameAction (word : Token) : Adaptation :=
  match Parser.visibilityWord word.kind with
  | some visibility => .rename (some visibility) none
  | none => .rename none (some word.text)

section Rule

variable {s : ParserState} {ts rest : List Token} {colons method ends : Token} {written : String}

theorem member_name_yields {t : Token} (ahead : s.tokensAhead = t :: rest)
    (word : Parser.isWord t.kind = true) :
    Yields Parser.memberName s fun t' s' => t' = t ∧ Consumes [t] s s' := by
  obtain rfl := token_of_ahead ahead
  exact .current <| .ite_pos word
    ⟨s.token, s.advance, rfl, rfl, .advance ahead (more_of_word word)⟩

/-- Two tokens show that the rule starts with the name of a trait. -/
theorem shows_trait (named : TraitName ts written) (ahead : s.tokensAhead = ts ++ colons :: rest)
    (is : colons.kind = .doubleColon) :
    ((s.stream.peek 1).kind = .doubleColon || decide (s.token.kind = .backslash)) = true := by
  cases named with
  | @simple t word =>
    obtain rfl := token_of_ahead ahead
    have more : s.token.kind ≠ .eof := by rw [word]; nofun
    rw [peek_one more, token_of_ahead (tokens_ahead_advance ahead more)]
    simp [is]
  | absolute root =>
    rw [token_of_ahead ahead]
    simp [root]

theorem rule_method_yields (lettered : Lettered s.tokens) (named : TraitName ts written)
    (ahead : s.tokensAhead = ts ++ colons :: method :: rest) (is : colons.kind = .doubleColon)
    (word : Parser.isWord method.kind = true) :
    Yields Parser.ruleMethod s fun read s' =>
      read = (some (s.names.resolve written), method.text) ∧
        Consumes (ts ++ [colons, method]) s s' := by
  refine .ahead <| .check <| .ite_pos (shows_trait named ahead is) ?_
  refine .bind (class_name_yields lettered named ahead (by rw [is]; nofun)) ?_
  rintro _ s₁ ⟨rfl, takes⟩
  have ahead₁ := takes.left ahead
  have colon : Consumes [colons] s₁ s₁.advance := .advance ahead₁ (by rw [is]; nofun)
  refine .expect (by rw [token_of_ahead ahead₁, is]) ?_
  refine .bind (member_name_yields (colon.left ahead₁) word) ?_
  rintro _ s₂ ⟨rfl, last⟩
  exact .pure ⟨rfl, takes.trans (colon.trans last)⟩

theorem rename_rule_yields {newName : Token} (ahead : s.tokensAhead = newName :: ends :: rest)
    (word : Parser.isWord newName.kind = true) (is : ends.kind = .semicolon) :
    Yields Parser.renameRule s fun action s' =>
      action = newNameAction newName ∧ Consumes [newName] s s' := by
  have here := token_of_ahead ahead
  have takes : Consumes [newName] s s.advance := .advance ahead (more_of_word word)
  have stop : s.advance.token.kind.isStatementEnd = true := by
    rw [token_of_ahead (takes.left ahead), is]
    rfl
  cases visible : Parser.visibilityWord newName.kind with
  | some visibility =>
    refine .bind (R := fun v s' => v = some visibility ∧ s' = s.advance) (.current ?_) ?_
    · rw [here, visible]
      exact .skip <| .pure ⟨rfl, rfl⟩
    rintro _ _ ⟨rfl, rfl⟩
    refine .bind (R := fun n s' => n = none ∧ s' = s.advance) ?_ ?_
    · exact .current <| .ite_pos stop <| .pure ⟨rfl, rfl⟩
    rintro _ _ ⟨rfl, rfl⟩
    exact .ite_neg (by simp) <| .pure ⟨by rw [newNameAction, visible], takes⟩
  | none =>
    refine .bind (R := fun v s' => v = none ∧ s = s') (.current ?_) ?_
    · rw [here, visible]
      exact .pure ⟨rfl, rfl⟩
    rintro _ _ ⟨rfl, rfl⟩
    refine .bind (R := fun n s' => n = some newName.text ∧ Consumes [newName] s s') ?_ ?_
    · have goes : ¬s.token.kind.isStatementEnd = true := by
        rw [here]
        cases kind : newName.kind <;> simp_all [Parser.isWord, TokenKind.isStatementEnd]
      refine .current <| .ite_neg goes <| .bind (member_name_yields ahead word) ?_
      rintro _ s' ⟨rfl, takes⟩
      exact .pure ⟨rfl, takes⟩
    rintro _ s' ⟨rfl, takes⟩
    exact .ite_neg (by simp) <| .pure ⟨by rw [newNameAction, visible], takes⟩

theorem rule_action_yields {as_ newName : Token}
    (ahead : s.tokensAhead = as_ :: newName :: ends :: rest) (renames : as_.kind = .keyword .as_)
    (word : Parser.isWord newName.kind = true) (is : ends.kind = .semicolon) :
    Yields Parser.ruleAction s fun action s' =>
      action = newNameAction newName ∧ Consumes [as_, newName] s s' := by
  have here := token_of_ahead ahead
  have first : Consumes [as_] s s.advance := .advance ahead (by rw [renames]; nofun)
  refine .eat_neg (by rw [here, renames]; nofun) <| .ite_neg (by nofun) <|
    .eat_pos (by rw [here, renames]) <| .ite_pos rfl ?_
  exact (rename_rule_yields (first.left ahead) word is).mono fun _ s' ⟨same, takes⟩ =>
    ⟨same, first.trans takes⟩

end Rule

/-- The tokens of the body of a class with a trait and a rule for one of its methods. -/
structure RuleBody (written : String) where
  opens : Token
  use_ : Token
  used : List Token
  opensRules : Token
  named : List Token
  colons : Token
  method : Token
  as_ : Token
  newName : Token
  ends : Token
  closesRules : Token
  closes : Token
  used_name : TraitName used written
  named_name : TraitName named written
  words : Parser.isWord method.kind = true ∧ Parser.isWord newName.kind = true
  kinds : [opens, use_, opensRules, colons, as_, ends, closesRules, closes].map (·.kind) =
    [.leftBrace, .keyword .use_, .leftBrace, .doubleColon, .keyword .as_, .semicolon, .rightBrace,
      .rightBrace]

namespace RuleBody

variable {written : String} (body : RuleBody written)

def rule : List Token :=
  body.named ++ [body.colons, body.method, body.as_, body.newName, body.ends]

def clause : List Token :=
  body.use_ :: (body.used ++ (body.opensRules :: (body.rule ++ [body.closesRules])))

def tokens : List Token := body.opens :: (body.clause ++ [body.closes])

def adaptation (names : NameContext) : NodeKind :=
  .traitAdaptation (some (names.resolve written)) body.method.text (newNameAction body.newName)

end RuleBody

section Body

variable {g : Nested} {s : ParserState} {rest : List Token} {written : String}
  {body : RuleBody written}

theorem adaptation_yields (lettered : Lettered s.tokens)
    (ahead : s.tokensAhead = body.rule ++ rest) :
    Yields Parser.traitAdaptation s fun i s' =>
      s'.Has i (body.adaptation s.names) [] ∧ Consumes body.rule s s' := by
  obtain ⟨-, -, -, colons, as_, ends, -, -⟩ := by simpa using body.kinds
  rw [RuleBody.rule, List.append_assoc] at ahead
  refine .current <|
    .bind (rule_method_yields lettered body.named_name ahead colons body.words.1) ?_
  rintro _ s₁ ⟨rfl, first⟩
  have ahead₁ : s₁.tokensAhead = body.as_ :: body.newName :: body.ends :: rest := by
    refine first.left ?_
    simpa using ahead
  refine .bind (rule_action_yields ahead₁ as_ body.words.2 ends) ?_
  rintro _ s₂ ⟨rfl, second⟩
  have ahead₂ := second.left ahead₁
  have third : Consumes [body.ends] s₂ s₂.advance := .advance ahead₂ (by rw [ends]; nofun)
  have all : Consumes body.rule s s₂.advance := by
    simpa [RuleBody.rule] using (first.trans second).trans third
  refine .bind (R := fun _ s' => s' = s₂.advance) ?_ ?_
  · exact .current <| .ite_pos (by rw [token_of_ahead ahead₂, ends]) <| .skip ⟨_, _, rfl, rfl⟩
  rintro span _ rfl
  refine .push (by simp) ⟨⟨_, adopt_new, rfl, rfl⟩, ?_⟩
  simpa using all.trans (.push _ _ _)

/-- One rule, behind which the rules end. -/
theorem rules_yield (lettered : Lettered s.tokens) (start : Span)
    (ahead : s.tokensAhead = body.opensRules :: (body.rule ++ body.closesRules :: rest)) :
    Yields (Parser.traitRules start) s fun rules s' =>
      ∃ i, rules = [i] ∧ s'.Has i (body.adaptation s.names) [] ∧
        Consumes (body.opensRules :: (body.rule ++ [body.closesRules])) s s' := by
  obtain ⟨-, -, opens, -, -, -, closes, -⟩ := by simpa using body.kinds
  have first : Consumes [body.opensRules] s s.advance := .advance ahead (by rw [opens]; nofun)
  refine .eat_pos (by rw [token_of_ahead ahead, opens]) <| .ite_pos rfl <| .remaining ?_
  have ahead₁ := first.left ahead
  obtain ⟨n, length⟩ : ∃ n, s.advance.kindsAhead.length = n + 1 := by
    rw [kinds_ahead_eq]
    exact ⟨_, rfl⟩
  rw [length]
  refine .bind (R := fun r s₁ => ∃ i, r = .yield [i] ∧ s₁.Has i (body.adaptation s.names) [] ∧
    Consumes body.rule s.advance s₁) ?_ ?_
  · have other : s.advance.token.kind ≠ .rightBrace := by
      obtain ⟨t, more, same, kind⟩ := body.named_name.starts
      rw [RuleBody.rule, same] at ahead₁
      rw [token_of_ahead ahead₁]
      rcases kind with kind | kind <;> rw [kind] <;> nofun
    refine .eat_neg other <| .ite_neg (by nofun) <|
      .bind (adaptation_yields (by rwa [tokens_advance]) ahead₁) ?_
    rintro i s₁ ⟨made, takes⟩
    rw [names_advance] at made
    exact .pure ⟨i, rfl, made, takes⟩
  rintro _ s₁ ⟨i, rfl, made, takes⟩
  have ahead₂ := takes.left ahead₁
  have last : Consumes [body.closesRules] s₁ s₁.advance := .advance ahead₂ (by rw [closes]; nofun)
  refine .bind (R := fun r s' => r = .done [i] ∧ s' = s₁.advance) ?_ ?_
  · exact .eat_pos (by rw [token_of_ahead ahead₂, closes]) <| .ite_pos rfl <| .pure ⟨rfl, rfl⟩
  rintro _ _ ⟨rfl, rfl⟩
  refine .pure ⟨i, rfl, made.develops last.nodes, ?_⟩
  simpa using (first.trans takes).trans last

theorem clause_yields (lettered : Lettered s.tokens) (ahead : s.tokensAhead = body.clause ++ rest) :
    Yields Parser.traitUse s fun i s' => ∃ rule,
      s'.Has i (.traitUse [s.names.resolve written]) [rule] ∧
        s'.Has rule (body.adaptation s.names) [] ∧ Consumes body.clause s s' := by
  obtain ⟨-, use_, opens, -, -, -, -, -⟩ := by simpa using body.kinds
  simp only [RuleBody.clause, List.cons_append, List.append_assoc] at ahead
  have first : Consumes [body.use_] s s.advance := .advance ahead (by rw [use_]; nofun)
  have ahead₁ := first.left ahead
  refine .advance <|
    .bind (class_names_yields (by rwa [tokens_advance]) body.used_name ahead₁ opens) ?_
  rintro _ s₁ ⟨rfl, second⟩
  have ahead₂ := second.left ahead₁
  have lettered₁ : Lettered s₁.tokens := by rwa [second.tokens, tokens_advance]
  refine .bind (rules_yield lettered₁ _ (by simpa using ahead₂)) ?_
  rintro _ s₂ ⟨rule, rfl, made, third⟩
  have all : Consumes body.clause s s₂ := by
    simpa [RuleBody.clause] using (first.trans second).trans third
  rw [second.names, names_advance] at made
  obtain ⟨n, found, -, -⟩ := id made
  have inside : ∀ i ∈ [rule], i < s₂.nodes.size := by
    simpa using (Array.getElem?_eq_some_iff.mp found).1
  refine .get <| .push inside ⟨rule, ⟨_, adopt_new, ?_, rfl⟩, made.develops adopt_develops, ?_⟩
  · rw [names_advance]
  · simpa using all.trans (.push _ _ _)

theorem body_yields (lettered : Lettered s.tokens) (ahead : s.tokensAhead = body.tokens ++ rest) :
    Yields (Parser.members g true) s fun ids s' => ∃ i rule, ids = [i] ∧
      s'.Has i (.traitUse [s.names.resolve written]) [rule] ∧
        s'.Has rule (body.adaptation s.names) [] ∧ Consumes body.tokens s s' := by
  obtain ⟨opens, use_, -, -, -, -, -, closes⟩ := by simpa using body.kinds
  simp only [RuleBody.tokens, List.cons_append, List.append_assoc] at ahead
  have first : Consumes [body.opens] s s.advance := .advance ahead (by rw [opens]; nofun)
  have ahead₁ := first.left ahead
  have here : s.advance.token.kind = .keyword .use_ := by
    rw [token_of_ahead ahead₁, use_]
  refine .expect (by rw [token_of_ahead ahead, opens]) <| .bind (R := fun ids s' => ∃ i rule,
    ids = [i] ∧ s'.Has i (.traitUse [s.names.resolve written]) [rule] ∧
      s'.Has rule (body.adaptation s.names) [] ∧ Consumes body.clause s.advance s') ?_ ?_
  · refine .recovering (by rw [here]; nofun) (by rw [here]; rfl) <| .bind (R := fun i s' => ∃ rule,
      s'.Has i (.traitUse [s.names.resolve written]) [rule] ∧
        s'.Has rule (body.adaptation s.names) [] ∧ Consumes body.clause s.advance s') ?_ ?_
    · refine .check <| .ite_pos (by simp [here]) ?_
      refine (clause_yields (by rwa [tokens_advance]) ahead₁).mono ?_
      rw [names_advance]
      exact fun _ _ => id
    · rintro i s₁ ⟨rule, made, recorded, takes⟩
      refine .pure ⟨⟨i, rule, rfl, made, recorded, takes⟩, .inr ?_⟩
      rw [token_of_ahead (takes.left ahead₁), closes]
      rfl
  · rintro _ s₁ ⟨i, rule, rfl, made, recorded, takes⟩
    have ahead₂ := takes.left ahead₁
    have last : Consumes [body.closes] s₁ s₁.advance := .advance ahead₂ (by rw [closes]; nofun)
    refine .expect (by rw [token_of_ahead ahead₂, closes]) <| .pure ⟨i, rule, rfl,
      made.develops last.nodes, recorded.develops last.nodes, ?_⟩
    simpa [RuleBody.tokens] using (first.trans takes).trans last

end Body

/-- While any text is read and whatever names are in effect, the body of a class that uses a trait
and gives one of its methods a new name is read without an error. The rule has the trait that the
name stands for, the method and the new name; a visibility in the place of the name is one. -/
theorem trait_rule_recorded {g : Nested} {s : ParserState} {source written : String}
    {body : RuleBody written} {rest : List Token} (text : s.tokens = (scan source).toArray)
    (ahead : s.tokensAhead = body.tokens ++ rest) :
    ∃ i rule s', Parser.members g true s = some (.ok [i], s') ∧ s'.tokensAhead = rest ∧
      s'.errors = s.errors ∧ s'.Has i (.traitUse [s.names.resolve written]) [rule] ∧
      s'.Has rule (.traitAdaptation (some (s.names.resolve written)) body.method.text
        (newNameAction body.newName)) [] := by
  have lettered : Lettered s.tokens := text ▸ lettered_scan source
  obtain ⟨_, s', run, i, rule, rfl, made, recorded, takes⟩ := body_yields lettered ahead
  exact ⟨i, rule, s', run, takes.left ahead, takes.errors, made, recorded⟩

def keywordRule : String :=
  "<?php class C \x7b use \\A\\class \x7b \\A\\class::print as use; \x7d \x7d"

def atRuleBody : ParserState :=
  { (ParserState.initial (.ofSource keywordRule)).advance.advance with
    names := (NameContext.ofNamespace "N").addImport "A" "B" }

def keywordRuleBody : RuleBody "\\A\\class" :=
  let t (k : Nat) : Token := (scan keywordRule).getD k ⟨.eof, "", .origin, []⟩
  have spelled : ("\\" ++ joinName (t 5).text (t 7).text = "\\A\\class" ∧
      "\\" ++ joinName (t 10).text (t 12).text = "\\A\\class") ∧
      (∀ k ∈ [5, 7, 10, 12, 14, 16], Parser.isWord (t k).kind = true) ∧
      (∀ k ∈ [4, 6, 9, 11], (t k).kind = .backslash) ∧
      [t 2, t 3, t 8, t 13, t 15, t 17, t 18, t 19].map (·.kind) = [.leftBrace, .keyword .use_,
        .leftBrace, .doubleColon, .keyword .as_, .semicolon, .rightBrace, .rightBrace] := by
    decide +kernel
  have word := spelled.2.1
  have root := spelled.2.2.1
  { opens := t 2, use_ := t 3, used := [t 4, t 5, t 6, t 7], opensRules := t 8
    named := [t 9, t 10, t 11, t 12], colons := t 13, method := t 14, as_ := t 15
    newName := t 16, ends := t 17, closesRules := t 18, closes := t 19
    used_name := spelled.1.1 ▸ .absolute (root 4 (by simp))
      (.more (word 5 (by simp)) (root 6 (by simp)) (.last (word 7 (by simp))))
    named_name := spelled.1.2 ▸ .absolute (root 9 (by simp))
      (.more (word 10 (by simp)) (root 11 (by simp)) (.last (word 12 (by simp))))
    words := ⟨word 14 (by simp), word 16 (by simp)⟩
    kinds := spelled.2.2.2 }

theorem trait_rule_recorded_keyword : ∃ i rule s',
    Parser.members Parser.outermost true atRuleBody = some (.ok [i], s') ∧ s'.errors = [] ∧
      s'.Has i (.traitUse ["A\\class"]) [rule] ∧
      s'.Has rule (.traitAdaptation (some "A\\class") "print" (.rename none (some "use"))) [] := by
  have text : atRuleBody.tokens = (scan keywordRule).toArray :=
    tokens_advance.trans (tokens_advance.trans (tokens_initial keywordRule))
  have clean : atRuleBody.errors = [] := errors_advance.trans (errors_advance.trans rfl)
  have known : atRuleBody.names.resolve "\\A\\class" = "A\\class" := by decide +kernel
  obtain ⟨ahead, method, action⟩ :
      atRuleBody.tokensAhead = keywordRuleBody.tokens ++ (scan keywordRule).drop 20 ∧
        keywordRuleBody.method.text = "print" ∧
        newNameAction keywordRuleBody.newName = .rename none (some "use") := by
    decide +kernel
  obtain ⟨i, rule, s', run, -, errors, made, recorded⟩ :=
    trait_rule_recorded (g := Parser.outermost) text ahead
  rw [known] at made recorded
  rw [method, action] at recorded
  exact ⟨i, rule, s', run, errors.trans clean, made, recorded⟩

/-- A rule with a visibility alone gives no new name. -/
theorem visibility_gives_no_name :
    ¬∃ t i, parse "<?php class C { use T { T::m as public; } }" 0 = .ok t ∧
      t.kind i = .traitAdaptation (some "T") "m" (.rename none (some "public")) := by
  rintro ⟨t, i, accepted, same⟩
  have shows : (parse "<?php class C { use T { T::m as public; } }" 0).toOption.all
      (fun t => ∀ n ∈ t.nodes,
        n.kind ≠ .traitAdaptation (some "T") "m" (.rename none (some "public"))) = true := by
    decide +kernel
  rw [accepted] at shows
  have none : ∀ n ∈ t.nodes, _ := of_decide_eq_true shows
  rw [SyntaxTree.kind, SyntaxTree.node?] at same
  cases found : t.nodes[i]? with
  | none =>
    rw [found] at same
    cases same
  | some n =>
    rw [found] at same
    exact none n (Array.mem_of_getElem? found) same

end PhpAnalyser
