import PhpAnalyser.Grammar.Expression
import PhpAnalyser.Proofs.Grammar.Naming
import PhpAnalyser.Proofs.Grammar.Spelling
/-!
What the productions of expressions make.
-/
namespace PhpAnalyser

def Token.power? (t : Token) : Option BindingPower :=
  if t.kind = .question then some ternaryPower else t.operator?.bind bindingPower?

/-- An expression whose operators bind at least as asked for, in front of a token that does not. -/
structure Operand (c : Setting) (least : Nat) (s : ParserState) (i : Nat) (s' : ParserState) : Prop
    extends Made c s i s' where
  power : ∀ q, powerAt s'.nodes i = some q → least ≤ q.left
  stop : ∀ p, s'.token.power? = some p → p.left < least
  spelled : Spelled s i s'

def Stated (c : Setting) (s : ParserState) : Option Nat → ParserState → Prop
  | some i, s' => Made c s i s'
  | none, s' => Gathered c s s' [] ∧ s.place < s'.place

/-- What the readers for nested expressions and statements do at some depth. -/
structure Readers (depth : Nat) (g : Nested) : Prop where
  expression : ∀ {c : Setting} {least : Nat} {s : ParserState}, c.depth = depth → Sound c s →
    Reads s (g.expression least) s (Operand c least s)
  statement : ∀ {c : Setting} {s : ParserState}, c.depth = depth → Sound c s →
    Reads s g.statement s (Stated c s)

section Productions

variable {g : Nested} {c : Setting} {origin s : ParserState} {ids : List Nat}

theorem operand_reads (readers : Readers c.depth g) (least : Nat) (sound : Sound c s) :
    Reads s (g.expression least) s (Made c s) :=
  (readers.expression rfl sound).mono fun _ _ operand => operand.toMade

theorem expression_reads (readers : Readers c.depth g) (sound : Sound c s) :
    Reads s (Parser.expression g) s (Made c s) :=
  operand_reads readers 0 sound

theorem expressions_reads (readers : Readers c.depth g) (sound : Sound c s) :
    Reads s (Parser.expressions g) s fun items s' => Underway c s s' items ∧ s.place < s'.place :=
  comma_separated_reads sound fun _ sound => expression_reads readers sound

theorem condition_reads (readers : Readers c.depth g) (sound : Sound c s) :
    Reads s (Parser.condition g) s fun i s' => Clear c s s' [i] ∧ s.place < s'.place := by
  refine .mark sound.underway rfl ?_
  intro s₁ took
  apply Reads.below took.underway (expression_reads readers took.underway.sound)
  intro i s₂ underway lt
  refine .mark underway rfl ?_
  intro s₃ took'
  have := took.place_lt
  have := took'.place_lt
  exact ⟨took'.clear underway, by omega⟩

theorem Reads.condition (underway : Underway c origin s ids) (readers : Readers c.depth g) :
    Reads origin (Parser.condition g) s fun i s' =>
      Clear c origin s' (ids ++ [i]) ∧ s.place < s'.place :=
  ((condition_reads readers underway.sound).from_ underway.onward).mono fun _ _ holds =>
    ⟨underway.clear holds.1 holds.2, holds.2⟩

theorem braced_reads (readers : Readers c.depth g) (sound : Sound c s) :
    Reads s (Parser.braced g) s (Made c s) := by
  apply Reads.below sound.underway (expression_reads readers sound)
  intro i s₁ underway lt
  refine .mark underway rfl ?_
  intro s₂ took
  exact ⟨took.underway, Nat.lt_trans lt took.place_lt⟩

theorem statements_reads (readers : Readers c.depth g) (stop : Token → Bool) (sound : Sound c s) :
    Reads s (Parser.statements g stop) s fun items s' =>
      Gathered c s s' items ∧ (s'.token.kind = .eof ∨ stop s'.token) := by
  refine recovering_reads stop _ sound fun s₁ sound _ _ _ => ?_
  refine .bind (readers.statement rfl sound) fun r s₂ stated => ?_
  cases r with
  | none => exact stated
  | some i =>
    have made : Made c s₁ i s₂ := stated
    exact ⟨made.toGathered, made.place_lt⟩

theorem block_reads (readers : Readers c.depth g) (sound : Sound c s) :
    Reads s (Parser.block g) s (Atom c s) := by
  refine .bind (expect_reads sound.underway rfl) ?_
  rintro _ s₁ ⟨rfl, -, took⟩
  have gathered := (statements_reads readers (fun t => t.kind = .rightBrace)
    took.underway.sound).mono fun _ _ => And.left
  refine .bind (.gathered took.underway took.place_lt gathered) ?_
  rintro items s₂ ⟨underway, le⟩
  refine .mark underway rfl ?_
  intro s₃ took'
  have := took.place_lt
  have := took'.place_lt
  exact finish_atom took'.underway (by omega) rfl

theorem promotes_reads : Reads origin Parser.promotes s fun promoted s' =>
    s' = s ∧ (promoted → s.token.kind.isOrdinary) := by
  refine .current ?_
  split
  next kind => exact ⟨rfl, fun _ => by rw [kind]; rfl⟩
  next kind => exact ⟨rfl, fun _ => by rw [kind]; rfl⟩
  next kind => exact ⟨rfl, fun _ => by rw [kind]; rfl⟩
  next kind => exact .ahead ⟨rfl, fun _ => by rw [kind]; rfl⟩
  next => exact ⟨rfl, fun no => nomatch no⟩

theorem promotions_takes : Takes 0 c Parser.promotions := by
  refine .loop 0 (fun _ origin s ids underway => ?_) ()
  refine .bind promotes_reads ?_
  rintro promoted s ⟨rfl, ordinary⟩
  refine .ite (fun isPromoted => ?_) fun _ => ⟨underway, Nat.le_refl _⟩
  refine .bind (skip_reads underway (ordinary isPromoted)) fun _ s' took => ?_
  exact ⟨took.underway, took.place_lt⟩

theorem parameter_hint_takes : Takes 0 c Parser.parameterHint := by
  intro origin s ids underway
  refine .current <| .ite (fun _ => ⟨underway, Nat.le_refl _⟩) fun _ => .map ?_
  exact (type_hint_takes _ _ _ underway).mono fun _ _ holds => ⟨holds.1, Nat.le_of_lt holds.2⟩

theorem formal_parameter_reads (readers : Readers c.depth g) (sound : Sound c s) :
    Reads s (Parser.formalParameter g) s (Atom c s) := by
  refine .current <| .bind (promotions_takes _ _ _ sound.underway) ?_
  rintro - s₁ ⟨underway, le₁⟩
  apply parameter_hint_takes.then underway
  intro hint s₂ underway le₂
  refine .bind (eat_operator_reads underway) ?_
  rintro byRef s₃ ⟨underway, le₃, -⟩
  refine .bind (eat_reads underway rfl) ?_
  rintro variadic s₄ ⟨underway, le₄, -⟩
  refine .bind (expect_reads underway rfl) ?_
  rintro parameter s₅ ⟨-, -, took⟩
  have lt := took.place_lt
  refine .bind (eat_operator_reads took.underway) ?_
  rintro hasValue s₆ ⟨underway, le₆, -⟩
  refine .bind (.parts underway (.optional underway.sound fun _ =>
    expression_reads readers underway.sound)) ?_
  rintro value s₇ ⟨underway, le₇⟩
  exact finish_atom underway (by omega) rfl

theorem formal_parameters_reads (readers : Readers c.depth g) (sound : Sound c s) :
    Reads s (Parser.formalParameters g) s (Atom c s) := by
  refine .bind (expect_reads sound.underway rfl) ?_
  rintro _ s₁ ⟨rfl, -, took⟩
  have lt := took.place_lt
  refine .bind (.parts took.underway (comma_list_reads took.underway.sound fun _ sound =>
    (formal_parameter_reads readers sound).made)) ?_
  rintro parameters s₂ ⟨underway, le⟩
  refine .mark underway rfl ?_
  intro s₃ took
  have lt' := took.place_lt
  exact finish_atom took.underway (by omega) rfl

theorem argument_name_takes : Takes 0 c Parser.argumentName := by
  intro origin s ids underway
  refine .current <| .ahead <| .ite (fun named => ?_) fun _ => ⟨underway, Nat.le_refl _⟩
  rw [Bool.and_eq_true, decide_eq_true_eq] at named
  apply Reads.skip underway (ordinary_of_word named.1)
  intro s₁ took
  have lt := took.place_lt
  have ordinary : s₁.token.kind.isOrdinary := by rw [took.token_eq, named.2]; rfl
  refine (skip_reads took.underway ordinary).mono fun _ s₂ took' => ⟨took'.underway, ?_⟩
  exact Nat.le_of_lt (Nat.lt_trans lt took'.place_lt)

theorem argument_reads (readers : Readers c.depth g) (sound : Sound c s) :
    Reads s (Parser.argument g) s (Made c s) := by
  refine .bind (discard_eat_reads sound.underway rfl) ?_
  rintro - s₁ ⟨underway, le₁⟩
  refine .bind (discard_eat_operator_reads underway) ?_
  rintro - s₂ ⟨underway, le₂⟩
  apply argument_name_takes.then underway
  intro _ s₃ underway le₃
  refine (Reads.part underway (expression_reads readers underway.sound)).mono ?_
  rintro i s₄ ⟨underway, lt⟩
  exact ⟨underway, by omega⟩

theorem arguments_reads (readers : Readers c.depth g) (sound : Sound c s) :
    Reads s (Parser.arguments g) s (Atom c s) := by
  refine .bind (expect_reads sound.underway rfl) ?_
  rintro _ s₁ ⟨rfl, -, took⟩
  have lt := took.place_lt
  refine .bind (R := fun values s' => Underway c s s' values ∧ s₁.place ≤ s'.place) ?_ ?_
  · refine .loop (I := fun values s' => Underway c s s' values ∧ s₁.place ≤ s'.place)
      (fun _ _ h => h.1.onward.tokens) ⟨took.underway, Nat.le_refl _⟩ ?_
    rintro values s₂ ⟨underway, le⟩
    refine .check (fun _ => ⟨underway, le⟩) fun _ => ?_
    refine .test <| .ahead <| .ite (fun whole => ?_) fun _ => ?_
    · rw [Bool.and_eq_true, decide_eq_true_eq] at whole
      refine .bind (skip_reads underway (by rw [whole.1]; rfl)) fun _ s₃ took' => ?_
      exact ⟨took'.underway, Nat.le_trans le (Nat.le_of_lt took'.place_lt)⟩
    · apply Reads.below underway (argument_reads readers underway.sound)
      intro value s₃ underway lt'
      refine .bind (eat_reads underway rfl) ?_
      rintro eaten s₄ ⟨underway, le', -⟩
      refine .ite (fun _ => ⟨⟨underway, ?_⟩, ?_⟩) fun _ => ⟨underway, ?_⟩ <;> omega
  · rintro values s₂ ⟨underway, le⟩
    refine .mark underway rfl ?_
    intro s₃ took
    have lt' := took.place_lt
    exact finish_atom took.underway (by omega) rfl

structure Term (c : Setting) (s : ParserState) (i : Nat) (s' : ParserState) : Prop extends
    Atom c s i s' where
  spelled : Spelled s i s'

theorem Reads.atom {p : Parser Nat} (reads : Reads origin p s (Term c origin)) :
    Reads origin p s (Atom c origin) :=
  reads.mono fun _ _ term => term.toAtom

/-- A construct that starts with a token of no chain. -/
theorem Atom.term {s' : ParserState} {i : Nat} (atom : Atom c s i s')
    (foreign : s.token.isForeign) : Term c s i s' where
  toAtom := atom
  spelled := .of_foreign (.refl s) foreign atom.place_lt

theorem variable_within_reads (readers : Readers c.depth g) (fuel : Nat) (sound : Sound c s)
    (enough : s.tokens.size ≤ s.place + fuel) :
    Reads s (Parser.variableWithin g fuel) s (Term c s) := by
  induction fuel generalizing s with
  | zero => exact absurd s.place_lt (Nat.not_lt_of_le enough)
  | succ fuel ih =>
    refine .current <| .ite (fun isVariable => ?_) fun _ => ?_
    · have isVariable : s.token.kind = .variable := isVariable
      have ordinary : s.token.kind.isOrdinary := by rw [isVariable]; rfl
      apply Reads.skip sound.underway ordinary
      intro s₁ took
      refine (leaf_reads ordinary took rfl).mono fun i s₂ pushed => ⟨pushed.atom rfl, ?_⟩
      obtain ⟨n, found, kind, children⟩ := pushed.node
      have place : s₂.place = s.place + 1 :=
        (congrArg TokenStream.position pushed.stream).trans took.place
      rw [Spelled, taken_one place]
      exact .leaf isVariable found kind children
    · refine .bind (R := fun _ s' => s.token.kind = .dollar ∧ Took c s [] s s') (.discard ?_) ?_
      · refine (expect_reads sound.underway rfl).mono ?_
        rintro _ s₁ ⟨rfl, isDollar, took⟩
        exact ⟨isDollar, took⟩
      rintro - s₁ ⟨isDollar, took⟩
      have lt := took.place_lt
      refine .bind (eat_reads took.underway rfl) ?_
      rintro isBraced s₂ ⟨underway, le, -⟩
      refine .bind (R := fun i s' => Underway c s s' [i] ∧ s₂.place < s'.place) ?_ ?_
      · refine .ite (fun _ => ?_) fun _ => ?_
        · exact .part underway (braced_reads readers underway.sound)
        · refine .part underway ((ih underway.sound ?_).atom.made)
          rw [underway.onward.tokens]
          omega
      rintro inner s₃ ⟨underway, lt'⟩
      refine (finish_atom underway (by omega) rfl).mono fun i s₄ atom => atom.term ?_
      exact Token.is_foreign_of_kind (by rw [isDollar]; rfl)

theorem variable_expression_reads (readers : Readers c.depth g) (sound : Sound c s) :
    Reads s (Parser.variableExpression g) s (Term c s) :=
  .remaining <| variable_within_reads readers _ sound (by omega)

theorem name_expression_reads (sound : Sound c s) : Reads s Parser.nameExpression s (Atom c s) := by
  refine .bind (name_reads sound.underway) ?_
  rintro ⟨written, span⟩ s₁ ⟨same, ⟨underway, lt⟩, -⟩
  have same : span = s.token.span.merge s₁.last := same
  refine .get <| .current ?_
  rw [same]
  exact finish_atom underway lt (by split <;> rfl)

theorem class_reference_reads (sound : Sound c s) : Reads s Parser.classReference s (Atom c s) := by
  refine .bind (name_reads sound.underway) ?_
  rintro ⟨written, span⟩ s₁ ⟨same, ⟨underway, lt⟩, -⟩
  have same : span = s.token.span.merge s₁.last := same
  refine .get ?_
  rw [same]
  exact finish_atom underway lt rfl

theorem parenthesized_reads (readers : Readers c.depth g) (sound : Sound c s) :
    Reads s (Parser.parenthesized g) s (Atom c s) := by
  refine .current <| .bind (condition_reads readers sound) ?_
  rintro i s₁ ⟨clear, lt⟩
  exact finish_atom clear.toUnderway lt rfl

theorem call_operands_reads (readers : Readers c.depth g) (sound : Sound c s) :
    Reads s (Parser.callOperands g) s fun operands s' =>
      Underway c s s' operands ∧ s.place < s'.place := by
  refine .mark sound.underway rfl ?_
  intro s₁ took
  have lt := took.place_lt
  refine .bind (.parts took.underway (comma_list_reads took.underway.sound fun _ sound =>
    expression_reads readers sound)) ?_
  rintro operands s₂ ⟨underway, le⟩
  refine .mark underway rfl ?_
  intro s₃ took
  have lt' := took.place_lt
  exact ⟨took.underway, by omega⟩

theorem array_element_reads (readers : Readers c.depth g) (sound : Sound c s) :
    Reads s (Parser.arrayElement g) s (Atom c s) := by
  refine .current <| .bind (discard_eat_reads sound.underway rfl) ?_
  rintro - s₁ ⟨underway, le₁⟩
  refine .bind (eat_operator_reads underway) ?_
  rintro byRef s₂ ⟨underway, le₂, -⟩
  apply Reads.below underway (expression_reads readers underway.sound)
  intro first s₃ underway lt
  refine .bind (R := fun _ s' => Underway c s s' [first] ∧ s₃.place ≤ s'.place) ?_ ?_
  · refine .ite (fun _ => ⟨underway, Nat.le_refl _⟩) fun _ => ?_
    exact (eat_reads underway rfl).mono fun _ _ eaten => ⟨eaten.1, eaten.2.1⟩
  rintro isKey s₄ ⟨underway, le₄⟩
  refine .ite (fun _ => ?_) fun _ => finish_atom underway (by omega) rfl
  refine .bind (eat_operator_reads underway) ?_
  rintro byRef s₅ ⟨underway, le₅, -⟩
  apply Reads.below underway (expression_reads readers underway.sound)
  intro value s₆ underway lt'
  exact finish_atom underway (by omega) rfl

theorem array_elements_reads (readers : Readers c.depth g) {close : TokenKind} (sound : Sound c s) :
    Reads s (Parser.arrayElements g close) s fun elements s' => Underway c s s' elements := by
  refine .loop (I := fun elements s' => Underway c s s' elements) (fun _ _ h => h.onward.tokens)
    sound.underway fun elements s₁ underway => ?_
  refine .check (fun _ => underway) fun _ => ?_
  refine .bind (eat_reads underway rfl) ?_
  rintro eaten s₂ ⟨underway, le, lt⟩
  refine .ite (fun isEaten => ⟨underway, lt isEaten⟩) fun _ => ?_
  apply Reads.below underway (array_element_reads readers underway.sound).made
  intro element s₃ underway lt'
  refine .bind (eat_reads underway rfl) ?_
  rintro eaten s₄ ⟨underway, le', -⟩
  exact .ite (fun _ => ⟨underway, by omega⟩) fun _ => underway

theorem short_array_reads (readers : Readers c.depth g) (sound : Sound c s) :
    Reads s (Parser.shortArray g s.token.span) s (Atom c s) := by
  refine .mark sound.underway rfl ?_
  intro s₁ took
  have lt := took.place_lt
  refine .bind (.parts took.underway (array_elements_reads readers took.underway.sound)) ?_
  rintro elements s₂ ⟨underway, le⟩
  refine .mark underway rfl ?_
  intro s₃ took
  have lt' := took.place_lt
  exact finish_atom took.underway (by omega) rfl

theorem long_array_reads (readers : Readers c.depth g) (underway : Underway c origin s []) :
    Reads origin (Parser.longArray g origin.token.span) s (Atom c origin) := by
  have from_ := underway.onward.place_le
  refine .mark underway rfl ?_
  intro s₁ took
  have lt := took.place_lt
  refine .bind (.parts took.underway (array_elements_reads readers took.underway.sound)) ?_
  rintro elements s₂ ⟨underway, le⟩
  refine .mark underway rfl ?_
  intro s₃ took
  have lt' := took.place_lt
  exact finish_atom took.underway (by omega) rfl

theorem closure_uses_reads (readers : Readers c.depth g) (sound : Sound c s)
    (word : s.token.kind = .keyword .use_) :
    Reads s (Parser.closureUses g) s (Atom c s) := by
  apply Reads.advance sound.underway (by rw [word]; rfl)
  intro s₁ took
  have lt := took.place_lt
  refine .mark took.underway rfl ?_
  intro s₂ took
  have lt' := took.place_lt
  refine .bind (.parts took.underway (comma_list_reads took.underway.sound fun s₃ sound => ?_)) ?_
  · refine .bind (discard_eat_operator_reads sound.underway) ?_
    rintro - s₄ ⟨underway, le⟩
    have reads := (variable_expression_reads readers underway.sound).atom.made
    refine (Reads.part underway reads).mono ?_
    rintro i s₅ ⟨underway, lt⟩
    exact ⟨underway, Nat.lt_of_le_of_lt le lt⟩
  rintro captured s₃ ⟨underway, le⟩
  refine .mark underway rfl ?_
  intro s₄ took
  have lt'' := took.place_lt
  exact finish_atom took.underway (by omega) rfl

theorem closure_reads (readers : Readers c.depth g) {isStatic : Bool}
    (underway : Underway c origin s []) :
    Reads origin (Parser.closure g origin.token.span isStatic) s (Atom c origin) := by
  have from_ := underway.onward.place_le
  refine .mark underway rfl ?_
  intro s₁ took
  have lt := took.place_lt
  refine .bind (eat_operator_reads took.underway) ?_
  rintro byRef s₂ ⟨underway, le₂, -⟩
  apply Reads.below underway (formal_parameters_reads readers underway.sound).made
  intro parameters s₃ underway lt₃
  refine .test <| .bind (.parts underway (.optional underway.sound fun word =>
    (closure_uses_reads readers underway.sound (of_decide_eq_true word)).made)) ?_
  rintro captured s₄ ⟨underway, le₄⟩
  apply return_type_takes.then underway
  intro _ s₅ underway le₅
  apply Reads.below underway (block_reads readers underway.sound).made
  intro body s₆ underway lt₆
  exact finish_atom underway (by omega) rfl

theorem arrow_function_reads (readers : Readers c.depth g) {isStatic : Bool}
    (underway : Underway c origin s []) (ordinary : s.token.kind.isOrdinary) :
    Reads origin (Parser.arrowFunction g origin.token.span isStatic) s (Atom c origin) := by
  have from_ := underway.onward.place_le
  apply Reads.skip underway ordinary
  intro s₁ took
  have lt := took.place_lt
  refine .bind (eat_operator_reads took.underway) ?_
  rintro byRef s₂ ⟨underway, le₂, -⟩
  apply Reads.below underway (formal_parameters_reads readers underway.sound).made
  intro parameters s₃ underway lt₃
  apply return_type_takes.then underway
  intro _ s₄ underway le₄
  refine .mark underway rfl ?_
  intro s₅ took'
  have lt₅ := took'.place_lt
  apply Reads.below took'.underway (operand_reads readers _ took'.underway.sound)
  intro body s₆ underway lt₆
  exact finish_atom underway (by omega) rfl

theorem late_bound_reads (sound : Sound c s) (ordinary : s.token.kind.isOrdinary) :
    Reads s Parser.lateBound s (Atom c s) := by
  apply Reads.advance sound.underway ordinary
  intro s₁ took
  refine .get ?_
  split
  · refine (leaf_reads ordinary took rfl).mono fun _ _ pushed => pushed.atom rfl
  · exact {
      valid := took.underway.sound.toValid
      onward := took.onward
      located := ⟨s.token, took.onward.tokens ▸ s.token_mem, rfl⟩
      start_le := took.onward.here_le sound.toValid
      noted_lt := fun f member => (sound.noted f (took.errors ▸ member)).2.2
      resumes := fun no => nomatch no }

theorem literal_reads {kind : LiteralKind} (sound : Sound c s)
    (ordinary : s.token.kind.isOrdinary) : Reads s (Parser.literal kind) s (Atom c s) := by
  apply Reads.advance sound.underway ordinary
  intro s₁ took
  exact (leaf_reads ordinary took rfl).mono fun _ _ pushed => pushed.atom rfl

theorem exit_operands_reads (readers : Readers c.depth g) (sound : Sound c s) :
    Reads s (Parser.exitOperands g) s fun operands s' => Underway c s s' operands :=
  .check (fun _ => (call_operands_reads readers sound).mono fun _ _ => And.left)
    fun _ => sound.underway

/-- The token behind the current one, if it is the word of an arrow function, can be taken. -/
theorem arrow_ordinary (valid : Valid s) (arrow : Parser.isArrowWord (s.stream.peek 1)) :
    (s.stream.peek 1).kind.isOrdinary :=
  valid.lexed.arrow _ (Array.getElem_mem _) arrow

theorem keyword_primary_reads (readers : Readers c.depth g) {word : Keyword} (sound : Sound c s)
    (kind : s.token.kind = .keyword word) :
    Reads s (Parser.keywordPrimary g word s.token.span) s (Atom c s) := by
  have ordinary : s.token.kind.isOrdinary := by rw [kind]; rfl
  have skipped {p : Parser Nat} (reads : ∀ s₁, Took c s [] s s₁ → Reads s p s₁ (Atom c s)) :
      Reads s (do Parser.skip; p) s (Atom c s) :=
    .bind (skip_reads sound.underway ordinary) fun _ s₁ took => reads s₁ took
  have fails : Reads s (Parser.unexpected ["expression"]) s (Atom c s) :=
    unexpected_reads sound.toValid (.refl s)
  have finished {kind : NodeKind} {s₁ : ParserState} (took : Took c s [] s s₁)
      (plain : kind.isPlain) :
      Reads s (do Parser.finish kind s.token.span (← Parser.callOperands g)) s₁ (Atom c s) := by
    have reads := (call_operands_reads readers took.underway.sound).mono fun _ _ => And.left
    refine .bind (.parts took.underway reads) ?_
    rintro operands s₂ ⟨underway, le⟩
    exact finish_atom underway (Nat.lt_of_lt_of_le took.place_lt le) plain
  have exited {s₁ : ParserState} (took : Took c s [] s s₁) :
      Reads s (do Parser.finish .exit s.token.span (← Parser.exitOperands g)) s₁ (Atom c s) := by
    refine .bind (.parts took.underway (exit_operands_reads readers took.underway.sound)) ?_
    rintro operands s₂ ⟨underway, le⟩
    exact finish_atom underway (Nat.lt_of_lt_of_le took.place_lt le) rfl
  refine .ahead ?_
  split
  · exact .ite (fun _ => name_expression_reads sound) fun _ => fails
  · refine .ite (fun _ => skipped fun s₁ took => ?_) fun _ => .ite (fun arrow => ?_) fun _ => ?_
    · exact closure_reads readers took.underway
    · refine skipped fun s₁ took => arrow_function_reads readers took.underway ?_
      rw [took.token_eq]
      exact arrow_ordinary sound.toValid arrow
    · exact late_bound_reads sound ordinary
  · exact late_bound_reads sound ordinary
  · exact late_bound_reads sound ordinary
  · exact closure_reads readers sound.underway
  · refine .ite (fun _ => skipped fun s₁ took => ?_) fun _ => fails
    exact long_array_reads readers took.underway
  · exact skipped fun s₁ took => finished took rfl
  · exact skipped fun s₁ took => finished took rfl
  · exact skipped fun s₁ took => exited took
  · exact skipped fun s₁ took => exited took
  · exact fails

theorem is_operator_cases {word : Keyword} (isOperator : word.isOperator) :
    word = .and_ ∨ word = .or_ ∨ word = .xor_ ∨ word = .instanceof_ := by
  unfold Keyword.isOperator at isOperator
  split at isOperator
  · exact .inl rfl
  · exact .inr (.inl rfl)
  · exact .inr (.inr (.inl rfl))
  · exact .inr (.inr (.inr rfl))
  · cases isOperator

theorem primary_reads (readers : Readers c.depth g) (sound : Sound c s) :
    Reads s (Parser.primary g) s (Term c s) := by
  have term {p : Parser Nat} (reads : Reads s p s (Atom c s)) (foreign : s.token.kind.isForeign) :
      Reads s p s (Term c s) :=
    reads.mono fun _ _ atom => atom.term (Token.is_foreign_of_kind foreign)
  have fails : Reads s (Parser.unexpected ["expression"]) s (Term c s) :=
    unexpected_reads sound.toValid (.refl s)
  refine .current ?_
  split
  next kind => exact variable_expression_reads readers sound
  next kind => exact variable_expression_reads readers sound
  next kind => exact term (literal_reads sound (by rw [kind]; rfl)) (by rw [kind]; rfl)
  next kind => exact term (literal_reads sound (by rw [kind]; rfl)) (by rw [kind]; rfl)
  next kind => exact term (literal_reads sound (by rw [kind]; rfl)) (by rw [kind]; rfl)
  next kind =>
    refine term (.ahead <| .ite (fun _ => ?_) fun _ => name_expression_reads sound)
      (by rw [kind]; rfl)
    exact arrow_function_reads readers sound.underway (by rw [kind]; rfl)
  next kind => exact term (name_expression_reads sound) (by rw [kind]; rfl)
  next kind => exact term (short_array_reads readers sound) (by rw [kind]; rfl)
  next kind => exact term (parenthesized_reads readers sound) (by rw [kind]; rfl)
  next word kind =>
    cases operator : word.isOperator with
    | false =>
      refine term (keyword_primary_reads readers sound kind) ?_
      rw [kind, TokenKind.isForeign, operator]
      rfl
    | true =>
      obtain rfl | rfl | rfl | rfl := is_operator_cases operator
      all_goals exact fails
  next => exact fails

structure Link (c : Setting) (origin s : ParserState) (i : Nat) (s' : ParserState) : Prop extends
    Atom c origin i s' where
  further : s.place < s'.place

theorem wrap_link {kind : NodeKind} {base : Nat} {rest : List Nat} {s₁ : ParserState}
    (underway : Underway c origin s₁ (base :: rest)) (onward : Onward origin s)
    (lt : s.place < s₁.place) (plain : kind.isPlain) :
    Reads origin (Parser.wrap kind base rest) s₁ (Link c origin s) := by
  have le := onward.place_le
  refine (wrap_reads underway (by omega) (fun _ => .of_plain plain) (.of_plain plain)).mono
    fun i s₂ pushed => ?_
  refine ⟨pushed.atom (power_of_plain plain), ?_⟩
  have place : s₂.place = s₁.place := congrArg TokenStream.position pushed.stream
  rwa [place]

theorem array_index_reads (readers : Readers c.depth g) {base : Nat}
    (underway : Underway c origin s [base]) (ordinary : s.token.kind.isOrdinary) :
    Reads origin (Parser.arrayIndex g base) s (Link c origin s) := by
  have onward := underway.onward
  apply Reads.skip underway ordinary
  intro s₁ took
  have lt := took.place_lt
  refine .test <| .bind (.parts took.underway (.optional took.underway.sound fun _ =>
    expression_reads readers took.underway.sound)) ?_
  rintro index s₂ ⟨underway, le⟩
  refine .mark underway rfl ?_
  intro s₃ took
  have lt' := took.place_lt
  exact wrap_link took.underway onward (by omega) rfl

theorem string_index_reads (readers : Readers c.depth g) {base : Nat}
    (underway : Underway c origin s [base]) (ordinary : s.token.kind.isOrdinary) :
    Reads origin (Parser.stringIndex g base) s (Link c origin s) := by
  have onward := underway.onward
  apply Reads.skip underway ordinary
  intro s₁ took
  have lt := took.place_lt
  apply Reads.below took.underway (braced_reads readers took.underway.sound)
  intro index s₂ underway lt'
  exact wrap_link underway onward (by omega) rfl

theorem member_word_reads {ids : List Nat} (underway : Underway c origin s ids) :
    Reads origin Parser.memberWord s fun t s' =>
      t = s.token ∧ s.token.kind.isOrdinary ∧ Took c origin ids s s' := by
  refine .check (fun isVariable => ?_) fun _ => ?_
  · have ordinary : s.token.kind.isOrdinary := by rw [isVariable]; rfl
    exact (advance_reads underway ordinary).mono fun _ _ h => ⟨h.1, ordinary, h.2⟩
  · exact member_name_reads underway

/-- The nodes of an expression that names a member hang below no other node. -/
theorem member_target_reads (readers : Readers c.depth g) (sound : Sound c s) :
    Reads s (Parser.memberTarget g) s fun _ s' => Underway c s s' [] ∧ s.place < s'.place := by
  refine .bind (eat_reads sound.underway rfl) ?_
  rintro eaten s₁ ⟨underway, le, -⟩
  refine .ite (fun _ => ?_) fun _ => ?_
  · refine .bind (.discard (Q := fun _ s' => Underway c s s' [] ∧ s.place < s'.place) ?_) ?_
    · refine (Reads.part underway (braced_reads readers underway.sound)).mono ?_
      rintro i s₂ ⟨underway, lt⟩
      exact ⟨underway.drop, by omega⟩
    · exact fun _ _ holds => holds
  · refine .bind (member_word_reads underway) ?_
    rintro _ s₂ ⟨rfl, -, took⟩
    exact ⟨took.underway, Nat.lt_of_le_of_lt le took.place_lt⟩

theorem selected_member_reads (readers : Readers c.depth g) {isStatic : Bool} (sound : Sound c s) :
    Reads s (Parser.selectedMember g isStatic) s (Atom c s) := by
  refine .current <| .bind (member_target_reads readers sound) ?_
  rintro ⟨name, isVariable⟩ s₁ ⟨underway, lt⟩
  refine .test <| .ite (fun _ => ?_) fun _ => .ite (fun _ => ?_) fun _ => ?_
  · apply Reads.below underway (arguments_reads readers underway.sound).made
    intro values s₂ underway lt'
    exact finish_atom underway (by omega) rfl
  · exact finish_atom underway lt rfl
  · exact finish_atom underway lt rfl

theorem member_access_reads (readers : Readers c.depth g) {isStatic : Bool} {base : Nat}
    (underway : Underway c origin s [base]) (ordinary : s.token.kind.isOrdinary) :
    Reads origin (Parser.memberAccess g isStatic base) s (Link c origin s) := by
  have onward := underway.onward
  apply Reads.skip underway ordinary
  intro s₁ took
  have lt := took.place_lt
  apply Reads.below took.underway (selected_member_reads readers took.underway.sound).made
  intro selected s₂ underway lt'
  exact wrap_link underway onward (by omega) rfl

theorem function_call_reads (readers : Readers c.depth g) {base : Nat}
    (underway : Underway c origin s [base]) :
    Reads origin (Parser.functionCall g base) s (Link c origin s) := by
  have onward := underway.onward
  apply Reads.below underway (arguments_reads readers underway.sound).made
  intro values s₁ underway lt
  exact wrap_link underway onward lt rfl

theorem postfixed_reads {kind : NodeKind} {base : Nat} (underway : Underway c origin s [base])
    (ordinary : s.token.kind.isOrdinary) (plain : kind.isPlain) :
    Reads origin (Parser.postfixed kind base) s (Link c origin s) := by
  have onward := underway.onward
  apply Reads.skip underway ordinary
  intro s₁ took
  exact wrap_link took.underway onward took.place_lt plain

/-- What stands above an operand instead of it is an operand itself, once a token of no chain was
taken. -/
theorem Link.term {s' : ParserState} {i : Nat} (link : Link c origin s i s')
    (onward : Onward origin s) (foreign : s.token.isForeign) : Term c origin i s' where
  toAtom := link.toAtom
  spelled := .of_foreign onward foreign link.further

theorem chain_link_reads (readers : Readers c.depth g) {base : Nat} (term : Term c origin base s) :
    Reads origin (Parser.chainLink g base) s (Steps (Term c origin) (Term c origin) s) := by
  have onward := term.onward
  have underway := term.toUnderway
  obtain ⟨n, found, -⟩ := term.pending.each base (List.mem_singleton.mpr rfl)
  have again {p : Parser Nat} (reads : Reads origin p s (Link c origin s))
      (foreign : s.token.isForeign) :
      Reads origin (do return .yield (← p)) s (Steps (Term c origin) (Term c origin) s) :=
    reads.bind fun _ _ link => ⟨link.term onward foreign, link.further⟩
  have ends {p : Parser Nat} (reads : Reads origin p s (Link c origin s))
      (foreign : s.token.isForeign) :
      Reads origin (do return .done (← p)) s (Steps (Term c origin) (Term c origin) s) :=
    reads.bind fun _ _ link => link.term onward foreign
  refine .current ?_
  split
  next kind =>
    exact again (array_index_reads readers underway (by rw [kind]; rfl))
      (Token.is_foreign_of_kind (by rw [kind]; rfl))
  next kind =>
    refine .bind (kind_of_reads found) ?_
    rintro _ _ ⟨rfl, rfl⟩
    refine .ite (fun _ => ?_) fun _ => term
    exact again (string_index_reads readers underway (by rw [kind]; rfl))
      (Token.is_foreign_of_kind (by rw [kind]; rfl))
  next kind =>
    exact again (member_access_reads readers underway (by rw [kind]; rfl))
      (Token.is_foreign_of_kind (by rw [kind]; rfl))
  next kind =>
    exact again (member_access_reads readers underway (by rw [kind]; rfl))
      (Token.is_foreign_of_kind (by rw [kind]; rfl))
  next kind =>
    exact again (function_call_reads readers underway)
      (Token.is_foreign_of_kind (by rw [kind]; rfl))
  next kind =>
    have ordinary : s.token.kind.isOrdinary := by rw [kind]; rfl
    refine .ite (fun text => ?_) fun _ => .ite (fun text => ?_) fun _ => term
    · exact ends (postfixed_reads underway ordinary rfl)
        (Token.is_foreign_of_operator kind (by rw [text]; rfl))
    · exact ends (postfixed_reads underway ordinary rfl)
        (Token.is_foreign_of_operator kind (by rw [text]; rfl))
  next => exact term

theorem chain_reads (readers : Readers c.depth g) {base : Nat} (term : Term c origin base s) :
    Reads origin (Parser.chain g base) s (Term c origin) :=
  .loop (I := Term c origin) (fun _ _ term => term.onward.tokens) term fun _ _ term =>
    chain_link_reads readers term

theorem property_word_reads (sound : Sound c s) : Reads s Parser.propertyWord s (Atom c s) := by
  refine .bind (member_word_reads sound.underway) ?_
  rintro _ s₁ ⟨rfl, ordinary, took⟩
  exact (leaf_reads ordinary took rfl).mono fun _ _ pushed => pushed.atom rfl

theorem class_property_reads {isStatic : Bool} {base : Nat} (underway : Underway c origin s [base])
    (ordinary : s.token.kind.isOrdinary) :
    Reads origin (Parser.classProperty isStatic base) s (Link c origin s) := by
  have onward := underway.onward
  apply Reads.skip underway ordinary
  intro s₁ took
  have lt := took.place_lt
  apply Reads.below took.underway (property_word_reads took.underway.sound).made
  intro selected s₂ underway lt'
  exact wrap_link underway onward (by omega) rfl

theorem class_link_reads (readers : Readers c.depth g) {base : Nat} (term : Term c origin base s) :
    Reads origin (Parser.classLink g base) s (Steps (Term c origin) (Term c origin) s) := by
  have onward := term.onward
  have underway := term.toUnderway
  have again {p : Parser Nat} (reads : Reads origin p s (Link c origin s))
      (foreign : s.token.kind.isForeign) :
      Reads origin (do return .yield (← p)) s (Steps (Term c origin) (Term c origin) s) :=
    reads.bind fun _ _ link =>
      ⟨link.term onward (Token.is_foreign_of_kind foreign), link.further⟩
  refine .current <| .ite (fun kind => ?_) fun _ => .ite (fun kind => ?_) fun _ => .ahead <|
    .ite (fun both => ?_) fun _ => term
  · have kind : s.token.kind = .leftBracket := kind
    exact again (array_index_reads readers underway (by rw [kind]; rfl)) (by rw [kind]; rfl)
  · have kind : s.token.kind = .arrow := kind
    exact again (class_property_reads underway (by rw [kind]; rfl)) (by rw [kind]; rfl)
  · rw [Bool.and_eq_true, decide_eq_true_eq] at both
    have kind : s.token.kind = .doubleColon := both.1
    exact again (class_property_reads underway (by rw [kind]; rfl)) (by rw [kind]; rfl)

theorem dynamic_class_reads (readers : Readers c.depth g) (sound : Sound c s) :
    Reads s (Parser.dynamicClass g) s (Atom c s) := by
  refine .bind (variable_expression_reads readers sound) fun base s₁ term => ?_
  exact Reads.atom <| .loop (I := Term c s) (fun _ _ term => term.onward.tokens) term
    fun _ _ term => class_link_reads readers term

theorem new_target_reads (readers : Readers c.depth g) (sound : Sound c s) :
    Reads s (Parser.newTarget g) s (Atom c s) := by
  have fails : Reads s (Parser.unexpected ["class name"]) s (Atom c s) :=
    unexpected_reads sound.toValid (.refl s)
  refine .current ?_
  split
  · exact class_reference_reads sound
  · exact class_reference_reads sound
  · exact class_reference_reads sound
  · exact dynamic_class_reads readers sound
  · exact dynamic_class_reads readers sound
  · exact parenthesized_reads readers sound
  next kind => exact .ite (fun _ => late_bound_reads sound (by rw [kind]; rfl)) fun _ => fails
  · exact fails

theorem allocation_reads (readers : Readers c.depth g) (sound : Sound c s)
    (word : s.token.kind = .keyword .new_) : Reads s (Parser.allocation g) s (Atom c s) := by
  apply Reads.advance sound.underway (by rw [word]; rfl)
  intro s₁ took
  have lt := took.place_lt
  apply Reads.below took.underway (new_target_reads readers took.underway.sound).made
  intro target s₂ underway lt'
  refine .test <| .bind (.parts underway (.optional underway.sound fun _ =>
    (arguments_reads readers underway.sound).made)) ?_
  rintro values s₃ ⟨underway, le⟩
  exact finish_atom underway (by omega) rfl

theorem assignment_operators_foreign :
    ∀ op ∈ assignmentOperators, isJoint op = false := by decide

theorem assignment_reads (readers : Readers c.depth g) {target : Nat}
    (term : Term c origin target s) (kind : s.token.kind = .operator)
    (assigns : assignmentOperators.contains s.token.text) :
    Reads origin (Parser.assignment g target) s (Term c origin) := by
  have onward := term.onward
  have foreign : s.token.isForeign :=
    Token.is_foreign_of_operator kind (assignment_operators_foreign _ (by simpa using assigns))
  apply Reads.advance term.toUnderway (by rw [kind]; rfl)
  intro s₁ took
  have lt := took.place_lt
  refine .bind (R := fun _ s' => Underway c origin s' [target] ∧ s₁.place ≤ s'.place) ?_ ?_
  · refine .ite (fun _ => ?_) fun _ => ⟨took.underway, Nat.le_refl _⟩
    exact (eat_operator_reads took.underway).mono fun _ _ eaten => ⟨eaten.1, eaten.2.1⟩
  rintro byRef s₂ ⟨underway, le⟩
  refine .bind (.child underway (readers.expression rfl underway.sound)
    fun _ _ operand => operand.toMade) ?_
  rintro value s₃ ⟨underway, lt', operand⟩
  have from_ := term.place_lt
  refine (wrap_reads underway (by omega) (fun _ => .of_assignment operand.power)
    ⟨fun _ _ _ _ => trivial, fun _ => trivial⟩).mono ?_
  intro i s₄ pushed
  refine ⟨pushed.atom rfl, .of_foreign onward foreign ?_⟩
  have place : s₄.place = s₃.place := congrArg TokenStream.position pushed.stream
  omega

theorem assignable_reads (readers : Readers c.depth g) (sound : Sound c s) :
    Reads s (Parser.assignable g) s (Term c s) := by
  refine .bind (primary_reads readers sound) fun base s₁ term => ?_
  refine .bind (chain_reads readers term) fun target s₂ term => ?_
  obtain ⟨n, found, -⟩ := term.pending.each target (List.mem_singleton.mpr rfl)
  refine .current <| .bind (kind_of_reads found) ?_
  rintro _ _ ⟨rfl, rfl⟩
  refine .ite (fun assigns => ?_) fun _ => term
  simp only [Bool.and_eq_true, decide_eq_true_eq] at assigns
  exact assignment_reads readers term assigns.1.1 assigns.1.2

theorem prefixed_reads (readers : Readers c.depth g) {kind : NodeKind} {power : Nat}
    (sound : Sound c s) (ordinary : s.token.kind.isOrdinary)
    (asks : kind.isPlain ∨ kind.operandPower? = some power) :
    Reads s (Parser.prefixed g kind power) s fun i s' =>
      Atom c s i s' ∧ (s.token.kind = .operator → Spelled s i s') := by
  apply Reads.advance sound.underway ordinary
  intro s₁ took
  have lt := took.place_lt
  refine .bind (.child took.underway (readers.expression rfl took.underway.sound)
    fun _ _ operand => operand.toMade) ?_
  rintro a s₂ ⟨underway, lt', operand⟩
  refine (finish_reads underway (by omega) (.of_sign asks operand.power) (.of_sign asks)).mono ?_
  intro i s₃ pushed
  have notOperator : kind.power? = none := by
    rcases asks with plain | asks
    · exact power_of_plain plain
    · cases kind <;> first | rfl | cases asks
  refine ⟨pushed.atom notOperator, fun isOperator => ?_⟩
  have place : s₃.place = s₂.place := congrArg TokenStream.position pushed.stream
  have text : taken s s₃ = s.token :: taken s₁ s₂ := by
    rw [taken_of_place place, taken_trans took.onward operand.onward, taken_one took.place]
    rfl
  rw [Spelled, text]
  exact (operand.spelled.develops pushed.develops).prefixed isOperator

theorem unary_reads (readers : Readers c.depth g) (sound : Sound c s) :
    Reads s (Parser.unary g) s (Term c s) := by
  have signed {kind : NodeKind} {power : Nat} (isOperator : s.token.kind = .operator)
      (asks : kind.isPlain ∨ kind.operandPower? = some power) :
      Reads s (Parser.prefixed g kind power) s (Term c s) :=
    (prefixed_reads readers sound (by rw [isOperator]; rfl) asks).mono fun _ _ holds =>
      ⟨holds.1, holds.2 isOperator⟩
  have worded {kind : NodeKind} {power : Nat} (ordinary : s.token.kind.isOrdinary)
      (foreign : s.token.kind.isForeign) (asks : kind.isPlain ∨ kind.operandPower? = some power) :
      Reads s (Parser.prefixed g kind power) s (Term c s) :=
    (prefixed_reads readers sound ordinary asks).mono fun _ _ holds =>
      holds.1.term (Token.is_foreign_of_kind foreign)
  refine .current ?_
  split
  next kind =>
    split
    next known => exact signed kind (unary_kind_asks known)
    next => exact unexpected_reads sound.toValid (.refl s)
  next kind => exact worded (by rw [kind]; rfl) (by rw [kind]; rfl) (.inr rfl)
  next kind =>
    refine .bind (allocation_reads readers sound kind) fun base s₁ atom => ?_
    exact chain_reads readers (atom.term (Token.is_foreign_of_kind (by rw [kind]; rfl)))
  next kind => exact worded (by rw [kind]; rfl) (by rw [kind]; rfl) (.inl rfl)
  next kind => exact worded (by rw [kind]; rfl) (by rw [kind]; rfl) (.inl rfl)
  next kind => exact worded (by rw [kind]; rfl) (by rw [kind]; rfl) (.inl rfl)
  next kind => exact worded (by rw [kind]; rfl) (by rw [kind]; rfl) (.inl rfl)
  next kind => exact worded (by rw [kind]; rfl) (by rw [kind]; rfl) (.inl rfl)
  next kind => exact worded (by rw [kind]; rfl) (by rw [kind]; rfl) (.inl rfl)
  next => exact assignable_reads readers sound

/-- An operand that the current token may still make the left operand of its operator: that
operator then binds less than the last one read. -/
structure Left (c : Setting) (least : Nat) (s : ParserState) (i : Nat) (s' : ParserState) : Prop
    extends Made c s i s' where
  power : ∀ q, powerAt s'.nodes i = some q → least ≤ q.left
  tight : ∀ p q, s'.token.power? = some p → kindAt s'.nodes i ≠ some .instanceOf →
    powerAt s'.nodes i = some q → p.left < q.right
  spelled : Spelled s i s'

theorem Term.left {least : Nat} {s' : ParserState} {i : Nat} (term : Term c s i s') :
    Left c least s i s' where
  toMade := term.toMade
  power _ known := by
    rw [term.power] at known
    cases known
  tight _ _ _ _ known := by
    rw [term.power] at known
    cases known
  spelled := term.spelled

theorem Left.operand {least : Nat} {s' : ParserState} {i : Nat} (left : Left c least s i s')
    (stop : ∀ p, s'.token.power? = some p → p.left < least) : Operand c least s i s' where
  toMade := left.toMade
  power := left.power
  stop := stop
  spelled := left.spelled

/-- An operator node over `i` and its other operands binds as its powers say. -/
theorem Pushed.left {kind : NodeKind} {children : List Nat} {least i : Nat} {p : BindingPower}
    {s₁ s' : ParserState} (pushed : Pushed c s kind children s₁ i s') (power : kind.power? = some p)
    (least_le : least ≤ p.left)
    (stop : kind ≠ .instanceOf → ∀ p', s₁.token.power? = some p' → p'.left < p.right)
    (spelled : Spelled s i s') : Left c least s i s' where
  toMade := pushed.toMade
  power q known := by
    rw [powerAt, pushed.kind_at, Option.bind_some, power] at known
    exact Option.some.inj known ▸ least_le
  tight p' q ahead other known := by
    have token : s'.token = s₁.token := congrArg TokenStream.current pushed.stream
    rw [powerAt, pushed.kind_at, Option.bind_some, power] at known
    rw [pushed.kind_at] at other
    rw [token] at ahead
    exact Option.some.inj known ▸ stop (fun same => other (congrArg some same)) p' ahead
  spelled := spelled

theorem tested_type_reads (readers : Readers c.depth g) {power : Nat} (sound : Sound c s) :
    Reads s (Parser.testedType g power) s fun b s' =>
      Made c s b s' ∧ ∀ q, powerAt s'.nodes b = some q → power ≤ q.left := by
  have single {p : Parser Nat} (reads : Reads s p s (Atom c s)) : Reads s p s fun b s' =>
      Made c s b s' ∧ ∀ q, powerAt s'.nodes b = some q → power ≤ q.left :=
    reads.mono fun _ _ atom =>
      ⟨atom.toMade, fun q known => by rw [atom.power] at known; cases known⟩
  have whole : Reads s (g.expression power) s fun b s' =>
      Made c s b s' ∧ ∀ q, powerAt s'.nodes b = some q → power ≤ q.left :=
    (readers.expression rfl sound).mono fun _ _ operand => ⟨operand.toMade, operand.power⟩
  refine .current ?_
  split
  · exact single (class_reference_reads sound)
  · exact single (class_reference_reads sound)
  next kind =>
    exact .ite (fun _ => single (late_bound_reads sound (by rw [kind]; rfl))) fun _ => whole
  · exact whole

theorem right_operand_reads (readers : Readers c.depth g) {op : String} {power : Nat}
    (sound : Sound c s) :
    Reads s (Parser.rightOperand g op power) s fun b s' =>
      (Made c s b s' ∧ ∀ q, powerAt s'.nodes b = some q → power ≤ q.left) ∧
        (op ≠ "instanceof" → Operand c power s b s') := by
  refine .ite (fun isTest => ?_) fun _ => ?_
  · exact (tested_type_reads readers sound).mono fun _ _ holds =>
      ⟨holds, fun no => absurd isTest no⟩
  · exact (readers.expression rfl sound).mono fun _ _ operand =>
      ⟨⟨operand.toMade, operand.power⟩, fun _ => operand⟩

structure Middle (c : Setting) (s : ParserState) (inner : List Nat) (s' : ParserState) : Prop where
  underway : Underway c s s' inner
  place_lt : s.place < s'.place
  spelled : (inner = [] ∧ ∃ mark : Token, mark.kind = .colon ∧ taken s s' = [mark]) ∨
    ∃ m first rest mark, inner = [m] ∧ taken s s' = first :: rest ++ [mark] ∧
      first.kind ≠ .colon ∧ mark.kind = .colon ∧ Spells s'.nodes m (first :: rest)

theorem middle_reads (readers : Readers c.depth g) (sound : Sound c s) :
    Reads s (Parser.middle g) s (Middle c s) := by
  refine .bind (eat_cases sound.underway rfl) ?_
  rintro _ s (⟨rfl, isColon, took⟩ | ⟨rfl, notColon, rfl⟩)
  · exact ⟨took.underway, took.place_lt, .inl ⟨rfl, _, isColon, taken_one took.place⟩⟩
  · refine .bind (.child sound.underway (readers.expression rfl sound)
      fun _ _ operand => operand.toMade) ?_
    rintro m s₁ ⟨underway, lt, operand⟩
    refine .bind (R := fun _ s' => s₁.token.kind = .colon ∧ Took c s [m] s₁ s') (.discard ?_) ?_
    · refine (expect_reads underway rfl).mono ?_
      rintro _ s₂ ⟨rfl, isColon, took⟩
      exact ⟨isColon, took⟩
    rintro - s₂ ⟨isColon, took⟩
    have text : taken s s₂ = taken s s₁ ++ [s₁.token] := by
      rw [taken_trans operand.onward took.onward, taken_one took.place]
    obtain ⟨rest, head⟩ : ∃ rest, taken s s₁ = s.token :: rest :=
      List.head?_eq_some_iff.mp (head_taken lt)
    have spelled : Spells s₂.nodes m (taken s s₁) :=
      operand.spelled.develops took.onward.grown.develops
    rw [head] at text spelled
    exact ⟨took.underway, Nat.lt_trans lt took.place_lt,
      .inr ⟨m, s.token, rest, s₁.token, rfl, text, notColon, isColon, spelled⟩⟩

/-- What a ternary spells, whether or not it has an operand in the middle. -/
theorem Middle.spells {s' : ParserState} {inner : List Nat} {nodes : Array Node} {i left right : Nat}
    {n : Node} {question : Token} {u w : List Token} (middle : Middle c s inner s')
    (develops : Develops s'.nodes nodes) (first : Spells nodes left u) (last : Spells nodes right w)
    (isQuestion : question.kind = .question) (found : nodes[i]? = some n)
    (kind : n.kind = .conditional) (children : n.children = left :: (inner ++ [right])) :
    Spells nodes i (u ++ question :: (taken s s' ++ w)) := by
  rcases middle.spelled with ⟨none, mark, isColon, only⟩ |
    ⟨m, t, rest, mark, one, inside, notColon, isColon, spelled⟩
  · rw [only]
    exact first.default last isQuestion isColon found kind (by rw [children, none]; rfl)
  · have cut : taken s s' ++ w = t :: rest ++ mark :: w := by
      rw [inside, List.append_assoc]
      rfl
    rw [cut]
    exact first.choose (spelled.develops develops) last isQuestion isColon ⟨t, rest, rfl, notColon⟩
      found kind (by rw [children, one]; rfl)

theorem ternary_reads (readers : Readers c.depth g) {least left : Nat} {s₁ : ParserState}
    (before : Left c least s left s₁) (isQuestion : s₁.token.kind = .question)
    (least_le : least ≤ ternaryPower.left) :
    Reads s (Parser.ternary g left) s₁ fun i s' =>
      Left c least s i s' ∧ s₁.place < s'.place := by
  have from_ := before.place_lt
  have ahead : s₁.token.power? = some ternaryPower := if_pos isQuestion
  apply Reads.skip before.toUnderway (by rw [isQuestion]; rfl)
  intro s₂ took
  have lt₂ := took.place_lt
  refine .bind ((middle_reads readers took.underway.sound).from_ took.underway.onward) ?_
  rintro inner s₃ middle
  have lt₃ := middle.place_lt
  have underway := took.underway.then middle.underway
  refine .bind (.child underway (readers.expression rfl underway.sound)
    fun _ _ operand => operand.toMade) ?_
  rintro right s₄ ⟨underway, lt₄, operand⟩
  have develops : Develops s₁.nodes s₄.nodes :=
    (took.onward.grown.trans (middle.underway.onward.grown.trans operand.onward.grown)).develops
  have low : left < s₁.nodes.size := before.pending.lt_size (List.mem_singleton.mpr rfl)
  have law : ∀ span, Lawful s₄.tokens c.loose s₄.nodes s₄.nodes.size
      ⟨.conditional, span, none, left :: (inner ++ [right]), none, []⟩ := by
    intro span
    have last : (left :: (inner ++ [right])).getLast? = some right := by
      rw [← List.cons_append]
      exact List.getLast?_concat
    have power : NodeKind.conditional.power? = some ternaryPower := rfl
    refine .of_operator (fun _ no => nomatch no) power rfl last operand.power ?_
    intro q other known
    rw [develops.kind_at low] at other
    rw [develops.power_at low] at known
    exact before.tight _ q ahead other known
  have fits : Fits c s₄ .conditional := ⟨fun _ _ _ _ => trivial, fun _ => trivial⟩
  refine (wrap_reads underway (by omega) law fits).mono fun i s₅ pushed => ?_
  have place : s₅.place = s₄.place := congrArg TokenStream.position pushed.stream
  refine ⟨pushed.left rfl least_le (fun _ => operand.stop) ?_, by omega⟩
  have text : taken s s₅ = taken s s₁ ++ s₁.token :: (taken s₂ s₃ ++ taken s₃ s₄) := by
    have onward := middle.underway.onward.trans operand.onward
    rw [taken_of_place place, taken_trans before.onward (took.onward.trans onward),
      taken_trans took.onward onward, taken_trans middle.underway.onward operand.onward,
      taken_one took.place]
    rfl
  obtain ⟨n, found, kind, children⟩ := pushed.node
  have first := before.spelled.develops (develops.trans pushed.develops)
  have last := operand.spelled.develops pushed.develops
  rw [Spelled, text]
  exact middle.spells (operand.onward.grown.develops.trans pushed.develops) first last isQuestion
    found kind children

theorem joined_reads (readers : Readers c.depth g) {least left : Nat} {s₁ : ParserState}
    {op : String} {power : BindingPower} (before : Left c least s left s₁)
    (joins : s₁.token.operator? = some op) (known : bindingPower? op = some power)
    (least_le : least ≤ power.left) :
    Reads s (Parser.joined g op power.right left) s₁ fun i s' =>
      Left c least s i s' ∧ s₁.place < s'.place := by
  have from_ := before.place_lt
  have ahead : s₁.token.power? = some power := by
    have notQuestion : s₁.token.kind ≠ .question := by
      intro isQuestion
      simp [Token.operator?, isQuestion] at joins
    rw [Token.power?, if_neg notQuestion, joins, Option.bind_some, known]
  apply Reads.skip before.toUnderway (Token.ordinary_of_operator joins)
  intro s₂ took
  have lt₂ := took.place_lt
  refine .bind (.child took.underway (right_operand_reads readers took.underway.sound)
    fun _ _ holds => holds.1.1) ?_
  rintro right s₃ ⟨underway, lt₃, ⟨made, power_le⟩, operand⟩
  have grown := took.onward.grown.trans made.onward.grown
  have low : left < s₁.nodes.size := before.pending.lt_size (List.mem_singleton.mpr rfl)
  have law : ∀ span, Lawful s₃.tokens c.loose s₃.nodes s₃.nodes.size
      ⟨binaryKind op, span, none, [left, right], none, []⟩ := by
    intro span
    refine .of_operator (binary_kind_made op) (binary_kind_power known) rfl rfl power_le ?_
    intro q other known
    rw [grown.develops.kind_at low] at other
    rw [grown.develops.power_at low] at known
    exact before.tight _ q ahead other known
  have fits : Fits c s₃ (binaryKind op) := .of_operator (binary_kind_operator op)
  refine (wrap_reads underway (by omega) law fits).mono fun i s₄ pushed => ?_
  have place : s₄.place = s₃.place := congrArg TokenStream.position pushed.stream
  refine ⟨pushed.left (binary_kind_power known) least_le (fun other => ?_) ?_, by omega⟩
  · refine (operand fun isTest => other ?_).stop
    rw [isTest]
    rfl
  by_cases isTest : op = "instanceof"
  · subst isTest
    exact .of_foreign before.onward (Token.is_foreign_of_test joins) (by omega)
  have operand := operand isTest
  have joint : isJoint op := by simp [isJoint, known, isTest]
  have word := Token.word_of_operator joins
  rw [if_pos joint] at word
  have text : taken s s₄ = taken s s₁ ++ s₁.token :: taken s₂ s₃ := by
    rw [taken_of_place place, taken_trans before.onward (took.onward.trans made.onward),
      taken_trans took.onward made.onward, taken_one took.place]
    rfl
  obtain ⟨n, found, kind, children⟩ := pushed.node
  rw [Spelled, text]
  exact (before.spelled.develops (grown.develops.trans pushed.develops)).join
    (operand.spelled.develops pushed.develops) word joint found kind children

theorem operation_reads (readers : Readers c.depth g) {least left : Nat} {s₁ : ParserState}
    (before : Left c least s left s₁) :
    Reads s (Parser.operation g least left) s₁ (Steps (Left c least s) (Operand c least s) s₁) := by
  have from_ := before.place_lt
  refine .current <| .ite (fun isQuestion => ?_) fun notQuestion => ?_
  · have ahead : s₁.token.power? = some ternaryPower := if_pos isQuestion
    refine .ite (fun less => ?_) fun enough => ?_
    · refine before.operand fun p known => ?_
      rw [ahead] at known
      exact Option.some.inj known ▸ less
    · exact (ternary_reads readers before isQuestion (Nat.le_of_not_lt enough)).bind
        fun _ _ holds => holds
  have power_eq : s₁.token.power? = s₁.token.operator?.bind bindingPower? := if_neg notQuestion
  cases joins : s₁.token.operator? with
  | none => exact before.operand fun p known => by rw [power_eq, joins] at known; cases known
  | some op =>
    rw [joins, Option.bind_some] at power_eq
    rw [Option.bind_some]
    cases known : bindingPower? op with
    | none => exact before.operand fun p ahead => by rw [power_eq, known] at ahead; cases ahead
    | some power =>
      refine .ite (fun less => ?_) fun enough => ?_
      · refine before.operand fun p ahead => ?_
        rw [power_eq, known] at ahead
        exact Option.some.inj ahead ▸ less
      · exact (joined_reads readers before joins known (Nat.le_of_not_lt enough)).bind
          fun _ _ holds => holds

theorem binary_reads (readers : Readers c.depth g) (least : Nat) (sound : Sound c s) :
    Reads s (Parser.binary g least) s (Operand c least s) :=
  .bind (unary_reads readers sound) fun _ _ term =>
    .loop (I := Left c least s) (fun _ _ left => left.onward.tokens) term.left
      fun _ _ left => operation_reads readers left

end Productions

end PhpAnalyser
