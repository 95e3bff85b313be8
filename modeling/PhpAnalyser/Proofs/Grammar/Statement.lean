import PhpAnalyser.Grammar.Statement
import PhpAnalyser.Proofs.Grammar.Declaration
/-!
What the productions of statements make.
-/
namespace PhpAnalyser

variable {g : Nested} {c : Setting} {origin s : ParserState} {ids : List Nat}

/-- The body of a control structure, which starts behind the last token taken or, when it is
empty, may be that token. -/
structure Bodied (c : Setting) (s : ParserState) (i : Nat) (s' : ParserState) : Prop where
  sound : Sound c s'
  onward : Onward s s'
  pending : Pending s.nodes.size s'.nodes s.last.start s'.last.stop [i]

theorem Clear.body {s₁ s₂ : ParserState} {i : Nat} (clear : Clear c origin s₁ ids)
    (lt : origin.place < s₁.place) (bodied : Bodied c s₁ i s₂) :
    Underway c origin s₂ (ids ++ [i]) where
  valid := clear.valid
  sound := bodied.sound
  onward := clear.onward.trans bodied.onward
  pending := by
    have extent := clear.sound.last_extent
    exact clear.clear.append bodied.onward.grown bodied.pending (Nat.le_refl _)
      clear.onward.grown.size_le (clear.begun lt).start_le (Nat.le_refl _)
      (Nat.le_trans extent bodied.onward.stop_le)
  begun _ := (clear.begun lt).mono bodied.onward

theorem Made.bodied {s' : ParserState} {i : Nat} (made : Made c s i s') : Bodied c s i s' where
  sound := made.sound
  onward := made.onward
  pending := by
    have le := Nat.le_trans made.valid.last_extent made.valid.last_le
    exact made.pending.mono le (Nat.le_refl _)

theorem body_reads (readers : Readers c.depth g) {alternate : Bool} {closing : List Keyword}
    (sound : Sound c s) (anchored : Anchored s.tokens s.last) :
    Reads s (Parser.body g alternate closing) s (Bodied c s) := by
  refine .ite (fun _ => ?_) fun _ => ?_
  · refine .bind (expect_reads sound.underway rfl) ?_
    rintro _ s₁ ⟨rfl, -, took⟩
    have lt := took.place_lt
    have gathered := (statements_reads readers (fun t => t.kind.keyword?.any closing.contains)
      took.underway.sound).mono fun _ _ => And.left
    refine .bind (.gathered took.underway lt gathered) ?_
    rintro inner s₂ ⟨underway, le⟩
    exact (finish_atom underway (by omega) rfl).mono fun _ _ atom => atom.bodied
  · refine .bind (readers.statement rfl sound) fun r s₁ stated => ?_
    cases r with
    | some i => exact Made.bodied (show Made c s i s₁ from stated)
    | none =>
      obtain ⟨gathered, -⟩ := show Gathered c s s₁ [] ∧ s.place < s₁.place from stated
      have onward := gathered.onward
      have anchored : Anchored s₁.tokens s₁.last := by
        refine gathered.sound.last.resolve_left fun same => ?_
        have extent := anchored.extent
        have stop_le := onward.stop_le
        rw [same] at stop_le
        exact Nat.not_lt_zero _ (Nat.lt_of_lt_of_le extent stop_le)
      have none_yet : Pending s.nodes.size s₁.nodes s₁.last.start s₁.last.stop [] := .nil
      refine .get <| (push_places gathered.sound onward none_yet anchored (Nat.le_refl _)
        (Nat.le_refl _) (.of_plain rfl) (.of_plain rfl)).mono ?_
      rintro i _ ⟨sound, onward', pending, -, rfl⟩
      exact ⟨sound, onward', pending.mono onward.start_le (Nat.le_refl _)⟩

theorem Reads.body {alternate : Bool} {closing : List Keyword} (readers : Readers c.depth g)
    (clear : Clear c origin s ids) (lt : origin.place < s.place) :
    Reads origin (Parser.body g alternate closing) s fun i s' =>
      Underway c origin s' (ids ++ [i]) ∧ s.place ≤ s'.place := by
  have anchored := (clear.begun lt).anchored_last clear.sound.toValid
  refine ((body_reads readers clear.sound anchored).from_ clear.onward).mono fun i s' bodied => ?_
  exact ⟨clear.body lt bodied, bodied.onward.place_le⟩

theorem close_reads {alternate : Bool} {word : Keyword} {expected : String} {kind : NodeKind}
    (underway : Underway c origin s ids) (lt : origin.place < s.place) (plain : kind.isPlain) :
    Reads origin (Parser.close alternate word expected kind origin.token.span ids) s
      (Atom c origin) := by
  refine .ite (fun _ => ?_) fun _ => finish_atom underway lt plain
  refine .mark underway rfl ?_
  intro s₁ took
  exact push_statement_reads took.underway (Nat.lt_trans lt took.place_lt) plain

theorem else_if_branch_reads (readers : Readers c.depth g) {alternate : Bool} (sound : Sound c s)
    (word : s.token.kind = .keyword .elseIf_) :
    Reads s (Parser.elseIfBranch g alternate) s (Atom c s) := by
  apply Reads.advance sound.underway (by rw [word]; rfl)
  intro s₁ took
  have lt := took.place_lt
  refine .bind (.condition took.underway readers) ?_
  rintro test s₂ ⟨clear, lt₂⟩
  refine .bind (.body readers clear (by omega)) ?_
  rintro inner s₃ ⟨underway, le₃⟩
  exact finish_atom underway (by omega) rfl

theorem else_branch_reads (readers : Readers c.depth g) {alternate : Bool} (sound : Sound c s)
    (word : s.token.kind = .keyword .else_) :
    Reads s (Parser.elseBranch g alternate) s (Atom c s) := by
  apply Reads.advance sound.underway (by rw [word]; rfl)
  intro s₁ took
  have lt := took.place_lt
  refine .bind (.body readers (took.clear sound.underway) lt) ?_
  rintro inner s₂ ⟨underway, le₂⟩
  exact finish_atom underway (by omega) rfl

theorem if_statement_reads (readers : Readers c.depth g) (sound : Sound c s)
    (word : s.token.kind = .keyword .if_) : Reads s (Parser.ifStatement g) s (Atom c s) := by
  apply Reads.advance sound.underway (by rw [word]; rfl)
  intro s₁ took
  have lt := took.place_lt
  refine .bind (.condition took.underway readers) ?_
  rintro test s₂ ⟨clear, lt₂⟩
  refine .test <| .bind (.body readers clear (by omega)) ?_
  rintro first s₃ ⟨underway, le₃⟩
  refine .bind (R := fun others s' => Underway c s s' ([test, first] ++ others) ∧
    s₃.place ≤ s'.place) ?_ ?_
  · refine .loop (I := fun others s' => Underway c s s' ([test, first] ++ others) ∧
      s₃.place ≤ s'.place) (fun _ _ h => h.1.onward.tokens) ⟨underway, Nat.le_refl _⟩ ?_
    rintro others s₄ ⟨underway, le₄⟩
    refine .check (fun word => ?_) fun _ => ⟨underway, le₄⟩
    apply Reads.below underway (else_if_branch_reads readers underway.sound word).made
    intro other s₅ underway lt₅
    rw [List.append_assoc] at underway
    exact ⟨⟨underway, by omega⟩, lt₅⟩
  rintro others s₄ ⟨underway, le₄⟩
  refine .test <| .bind (.parts underway (.optional underway.sound fun word =>
    (else_branch_reads readers underway.sound (of_decide_eq_true word)).made)) ?_
  rintro last s₅ ⟨underway, le₅⟩
  exact close_reads underway (by omega) rfl

theorem while_statement_reads (readers : Readers c.depth g) (sound : Sound c s)
    (word : s.token.kind = .keyword .while_) : Reads s (Parser.whileStatement g) s (Atom c s) := by
  apply Reads.advance sound.underway (by rw [word]; rfl)
  intro s₁ took
  have lt := took.place_lt
  refine .bind (.condition took.underway readers) ?_
  rintro test s₂ ⟨clear, lt₂⟩
  refine .test <| .bind (.body readers clear (by omega)) ?_
  rintro inner s₃ ⟨underway, le₃⟩
  exact close_reads underway (by omega) rfl

theorem do_while_statement_reads (readers : Readers c.depth g) (sound : Sound c s)
    (word : s.token.kind = .keyword .do_) :
    Reads s (Parser.doWhileStatement g) s (Atom c s) := by
  apply Reads.advance sound.underway (by rw [word]; rfl)
  intro s₁ took
  have lt := took.place_lt
  refine .bind (.body readers (took.clear sound.underway) lt) ?_
  rintro inner s₂ ⟨underway, le₂⟩
  refine .mark underway rfl ?_
  intro s₃ took
  have lt₃ := took.place_lt
  refine .bind (.condition took.underway readers) ?_
  rintro test s₄ ⟨clear, lt₄⟩
  exact push_statement_reads clear.toUnderway (by omega) rfl

/-- A clause of a `for` ends with a mark behind its expressions. -/
theorem for_clause_reads (readers : Readers c.depth g) {kind : NodeKind} {closing : TokenKind}
    {expected : String} (sound : Sound c s) (plain : kind.isPlain) (ordinary : closing.isOrdinary) :
    Reads s (Parser.forClause g kind closing expected) s fun clause s' =>
      Clear c s s' clause ∧ s.place < s'.place := by
  refine .current <| .test <| .bind (R := fun clause s' => Underway c s s' clause) ?_ ?_
  · refine .optional sound fun _ => .bind (expressions_reads readers sound) ?_
    rintro items s₁ ⟨underway, lt⟩
    exact (finish_atom underway lt plain).made
  rintro clause s₁ underway
  refine .mark underway ordinary ?_
  intro s₂ took
  exact ⟨took.clear underway, Nat.lt_of_le_of_lt underway.onward.place_le took.place_lt⟩

theorem for_statement_reads (readers : Readers c.depth g) (sound : Sound c s)
    (word : s.token.kind = .keyword .for_) : Reads s (Parser.forStatement g) s (Atom c s) := by
  apply Reads.advance sound.underway (by rw [word]; rfl)
  intro s₁ took
  have lt := took.place_lt
  refine .mark took.underway rfl ?_
  intro s₂ took
  have lt₂ := took.place_lt
  have underway := took.underway
  refine .bind ((for_clause_reads readers underway.sound rfl rfl).from_ underway.onward) ?_
  rintro first s₃ ⟨clear, lt₃⟩
  have underway := underway.then clear.toUnderway
  refine .bind ((for_clause_reads readers underway.sound rfl rfl).from_ underway.onward) ?_
  rintro test s₄ ⟨clear, lt₄⟩
  have underway := underway.then clear.toUnderway
  refine .bind ((for_clause_reads readers underway.sound rfl rfl).from_ underway.onward) ?_
  rintro update s₅ ⟨clear, lt₅⟩
  refine .test <| .bind (.body readers (underway.clear clear lt₅) (by omega)) ?_
  rintro inner s₆ ⟨underway, le₆⟩
  exact close_reads underway (by omega) rfl

theorem foreach_targets_reads (readers : Readers c.depth g) (sound : Sound c s) :
    Reads s (Parser.foreachTargets g) s fun targets s' =>
      Underway c s s' targets.2 ∧ s.place < s'.place := by
  refine .bind (eat_operator_reads sound.underway) ?_
  rintro firstByRef s₁ ⟨underway, le₁, -⟩
  apply Reads.below underway (expression_reads readers underway.sound)
  intro first s₂ underway lt₂
  refine .bind (eat_reads underway rfl) ?_
  rintro isKey s₃ ⟨underway, le₃, -⟩
  refine .ite (fun _ => ?_) fun _ => ⟨underway, by omega⟩
  refine .bind (eat_operator_reads underway) ?_
  rintro byRef s₄ ⟨underway, le₄, -⟩
  apply Reads.below underway (expression_reads readers underway.sound)
  intro value s₅ underway lt₅
  exact ⟨underway, by omega⟩

theorem foreach_statement_reads (readers : Readers c.depth g) (sound : Sound c s)
    (word : s.token.kind = .keyword .foreach_) :
    Reads s (Parser.foreachStatement g) s (Atom c s) := by
  apply Reads.advance sound.underway (by rw [word]; rfl)
  intro s₁ took
  have lt := took.place_lt
  refine .mark took.underway rfl ?_
  intro s₂ took
  have lt₂ := took.place_lt
  apply Reads.below took.underway (expression_reads readers took.underway.sound)
  intro subject s₃ underway lt₃
  refine .mark underway rfl ?_
  intro s₄ took
  have lt₄ := took.place_lt
  refine .bind ((foreach_targets_reads readers took.underway.sound).from_ took.underway.onward) ?_
  rintro ⟨byRef, targets⟩ s₅ ⟨more, lt₅⟩
  have underway := took.underway.then more
  refine .mark underway rfl ?_
  intro s₆ took
  have lt₆ := took.place_lt
  refine .test <| .bind (.body readers (took.clear underway) (by omega)) ?_
  rintro inner s₇ ⟨underway, le₇⟩
  exact close_reads underway (by omega) rfl

theorem label_test_reads (readers : Readers c.depth g) (sound : Sound c s) :
    Reads s (Parser.labelTest g) s fun label s' =>
      Underway c s s' label.2 ∧ s.place < s'.place := by
  refine .current <| .ite (fun word => ?_) fun _ => .ite (fun word => ?_) fun _ => ?_
  · have word : s.token.kind = .keyword .case_ := word
    apply Reads.skip sound.underway (by rw [word]; rfl)
    intro s₁ took
    have lt := took.place_lt
    apply Reads.below took.underway (expression_reads readers took.underway.sound)
    intro test s₂ underway lt₂
    exact ⟨underway, by omega⟩
  · have word : s.token.kind = .keyword .default_ := word
    apply Reads.skip sound.underway (by rw [word]; rfl)
    intro s₁ took
    exact ⟨took.underway, took.place_lt⟩
  · exact unexpected_reads sound.toValid (.refl s)

theorem label_mark_takes : Takes 1 c Parser.labelMark := by
  intro origin s ids underway
  refine .current <| .ite (fun isMark => ?_) fun _ => ?_
  · have ordinary : s.token.kind.isOrdinary := by
      rw [Bool.or_eq_true, decide_eq_true_eq, decide_eq_true_eq] at isMark
      rcases isMark with kind | kind
      · rw [show s.token.kind = .colon from kind]
        rfl
      · rw [show s.token.kind = .semicolon from kind]
        rfl
    exact (skip_reads underway ordinary).mono fun _ _ took => ⟨took.underway, took.place_lt⟩
  · exact unexpected_reads underway.sound.toValid underway.onward

theorem switch_label_reads (readers : Readers c.depth g) (sound : Sound c s) :
    Reads s (Parser.switchLabel g) s (Atom c s) := by
  refine .current <| .bind (label_test_reads readers sound) ?_
  rintro ⟨isDefault, test⟩ s₁ ⟨underway, lt⟩
  apply label_mark_takes.then underway
  intro _ s₂ underway lt₂
  have gathered := (statements_reads readers Parser.endsLabel underway.sound).mono
    fun _ _ => And.left
  refine .bind (.gathered underway (by omega) gathered) ?_
  rintro inner s₃ ⟨underway, le₃⟩
  exact finish_atom underway (by omega) rfl

theorem switch_opening_takes : Takes 1 c Parser.switchOpening := by
  intro origin s ids underway
  refine .bind (eat_reads underway rfl) ?_
  rintro eaten s₁ ⟨underway, le, lt⟩
  refine .ite (fun isEaten => ⟨underway, lt isEaten⟩) fun _ => ?_
  refine .mark underway rfl ?_
  intro s₂ took
  exact ⟨took.underway, Nat.lt_of_le_of_lt le took.place_lt⟩

/-- The labels of a `switch` go up to the token that closes it. -/
theorem switch_labels_reads (readers : Readers c.depth g) {closing : TokenKind}
    (sound : Sound c s) :
    Reads s (Parser.repeatFrom [] fun labels => do
      if ← Parser.check closing then return .done labels
      return .yield (labels ++ [← Parser.switchLabel g])) s fun labels s' =>
        Underway c s s' labels ∧ s'.token.kind = closing := by
  refine .loop (I := fun labels s' => Underway c s s' labels) (fun _ _ h => h.onward.tokens)
    sound.underway fun labels s₁ underway => ?_
  refine .check (fun closes => ⟨underway, closes⟩) fun _ => ?_
  refine .bind (.part underway (switch_label_reads readers underway.sound).made) ?_
  exact fun label s₂ holds => holds

theorem switch_statement_reads (readers : Readers c.depth g) (sound : Sound c s)
    (word : s.token.kind = .keyword .switch_) :
    Reads s (Parser.switchStatement g) s (Atom c s) := by
  apply Reads.advance sound.underway (by rw [word]; rfl)
  intro s₁ took
  have lt := took.place_lt
  refine .bind (.condition took.underway readers) ?_
  rintro subject s₂ ⟨clear, lt₂⟩
  apply switch_opening_takes.then clear.toUnderway
  intro alternate s₃ underway lt₃
  refine .bind (discard_eat_reads underway rfl) ?_
  rintro - s₄ ⟨underway, le₄⟩
  refine .bind ((switch_labels_reads readers underway.sound).from_ underway.onward) ?_
  rintro labels s₅ ⟨more, closes⟩
  have le₅ := more.onward.place_le
  have ordinary : s₅.token.kind.isOrdinary := by
    rw [closes]
    cases alternate <;> rfl
  apply Reads.skip (underway.then more) ordinary
  intro s₆ took
  have lt₆ := took.place_lt
  refine .ite (fun _ => ?_) fun _ => ?_
  · exact push_statement_reads took.underway (by omega) rfl
  · exact finish_atom took.underway (by omega) rfl

theorem caught_types_takes : Takes 1 c Parser.caughtTypes := by
  refine .loop 1 (fun types origin s ids underway => ?_) _
  apply class_name_takes.then underway
  intro name s₁ underway lt
  refine .bind (eat_operator_reads underway) ?_
  rintro eaten s₂ ⟨underway, le, -⟩
  have lt' : s.place + 1 ≤ s₂.place := Nat.le_trans lt le
  exact .ite (fun _ => ⟨underway, lt'⟩) fun _ => ⟨underway, lt'⟩

theorem caught_variable_takes : Takes 0 c Parser.caughtVariable := by
  intro origin s ids underway
  refine .current <| .ite (fun isVariable => ?_) fun _ => ⟨underway, Nat.le_refl _⟩
  have isVariable : s.token.kind = .variable := isVariable
  refine .bind (skip_reads underway (by rw [isVariable]; rfl)) fun _ s' took => ?_
  exact ⟨took.underway, Nat.le_of_lt took.place_lt⟩

theorem catch_clause_reads (readers : Readers c.depth g) (sound : Sound c s)
    (word : s.token.kind = .keyword .catch_) : Reads s (Parser.catchClause g) s (Atom c s) := by
  apply Reads.advance sound.underway (by rw [word]; rfl)
  intro s₁ took
  have lt := took.place_lt
  refine .mark took.underway rfl ?_
  intro s₂ took
  have lt₂ := took.place_lt
  apply caught_types_takes.then took.underway
  intro types s₃ underway lt₃
  apply caught_variable_takes.then underway
  intro bound s₄ underway le₄
  refine .mark underway rfl ?_
  intro s₅ took
  have lt₅ := took.place_lt
  apply Reads.below took.underway (block_reads readers took.underway.sound).made
  intro inner s₆ underway lt₆
  exact finish_atom underway (by omega) rfl

theorem finally_clause_reads (readers : Readers c.depth g) (sound : Sound c s)
    (word : s.token.kind = .keyword .finally_) : Reads s (Parser.finallyClause g) s (Atom c s) := by
  apply Reads.advance sound.underway (by rw [word]; rfl)
  intro s₁ took
  have lt := took.place_lt
  apply Reads.below took.underway (block_reads readers took.underway.sound).made
  intro inner s₂ underway lt₂
  exact finish_atom underway (by omega) rfl

theorem try_statement_reads (readers : Readers c.depth g) (sound : Sound c s)
    (word : s.token.kind = .keyword .try_) : Reads s (Parser.tryStatement g) s (Atom c s) := by
  apply Reads.advance sound.underway (by rw [word]; rfl)
  intro s₁ took
  have lt := took.place_lt
  apply Reads.below took.underway (block_reads readers took.underway.sound).made
  intro inner s₂ underway lt₂
  refine .bind (R := fun clauses s' => Underway c s s' (inner :: clauses) ∧
    s₂.place ≤ s'.place) ?_ ?_
  · refine .loop (I := fun clauses s' => Underway c s s' (inner :: clauses) ∧
      s₂.place ≤ s'.place) (fun _ _ h => h.1.onward.tokens) ⟨underway, Nat.le_refl _⟩ ?_
    rintro clauses s₃ ⟨underway, le₃⟩
    refine .check (fun word => ?_) fun _ => ⟨underway, le₃⟩
    apply Reads.below underway (catch_clause_reads readers underway.sound word).made
    intro clause s₄ underway lt₄
    exact ⟨⟨underway, by omega⟩, lt₄⟩
  rintro clauses s₃ ⟨underway, le₃⟩
  refine .test <| .bind (.parts underway (.optional underway.sound fun word =>
    (finally_clause_reads readers underway.sound (of_decide_eq_true word)).made)) ?_
  rintro last s₄ ⟨underway, le₄⟩
  refine .ite (fun _ => ?_) fun _ => finish_atom underway (by omega) rfl
  exact unexpected_reads underway.sound.toValid underway.onward

theorem jump_reads (readers : Readers c.depth g) {kind : NodeKind} (sound : Sound c s)
    (ordinary : s.token.kind.isOrdinary) (plain : kind.isPlain) :
    Reads s (Parser.jump g kind) s (Atom c s) := by
  apply Reads.advance sound.underway ordinary
  intro s₁ took
  have lt := took.place_lt
  refine .current <| .bind (.parts took.underway (.optional took.underway.sound fun _ =>
    expression_reads readers took.underway.sound)) ?_
  rintro value s₂ ⟨underway, le₂⟩
  exact push_statement_reads underway (by omega) plain

theorem list_statement_reads (readers : Readers c.depth g) {kind : NodeKind} (sound : Sound c s)
    (ordinary : s.token.kind.isOrdinary) (plain : kind.isPlain) :
    Reads s (Parser.listStatement g kind) s (Atom c s) := by
  apply Reads.advance sound.underway ordinary
  intro s₁ took
  have lt := took.place_lt
  refine .bind ((expressions_reads readers took.underway.sound).from_ took.underway.onward) ?_
  rintro values s₂ ⟨more, lt₂⟩
  exact push_statement_reads (took.underway.then more) (by omega) plain

theorem throw_statement_reads (readers : Readers c.depth g) (sound : Sound c s)
    (word : s.token.kind = .keyword .throw_) :
    Reads s (Parser.throwStatement g) s (Atom c s) := by
  apply Reads.advance sound.underway (by rw [word]; rfl)
  intro s₁ took
  have lt := took.place_lt
  apply Reads.below took.underway (expression_reads readers took.underway.sound)
  intro value s₂ underway lt₂
  exact push_statement_reads underway (by omega) rfl

theorem unset_statement_reads (readers : Readers c.depth g) (sound : Sound c s)
    (word : s.token.kind = .keyword .unset_) :
    Reads s (Parser.unsetStatement g) s (Atom c s) := by
  apply Reads.advance sound.underway (by rw [word]; rfl)
  intro s₁ took
  have lt := took.place_lt
  refine .bind ((call_operands_reads readers took.underway.sound).from_ took.underway.onward) ?_
  rintro targets s₂ ⟨more, lt₂⟩
  exact push_statement_reads (took.underway.then more) (by omega) rfl

def Setting.waiting (c : Setting) (ids : List Nat) : Setting := { c with loose := ids ++ c.loose }

theorem Underway.wait (underway : Underway c origin s ids) (more : List Nat) :
    Underway (c.waiting more) origin s ids :=
  underway.loosen rfl fun _ => List.mem_append_right more

theorem static_variable_reads (readers : Readers c.depth g) (sound : Sound c s) :
    Reads s (Parser.staticVariable g) s fun i s' => Made (c.waiting [i]) s i s' := by
  refine .bind (expect_reads sound.underway rfl) ?_
  rintro _ s₁ ⟨rfl, isVariable, took⟩
  have lt := took.place_lt
  have ordinary : s.token.kind.isOrdinary := by rw [isVariable]; rfl
  refine .bind (leaf_reads ordinary took rfl) ?_
  intro target s₂ pushed
  have place : s₂.place = s₁.place := congrArg TokenStream.position pushed.stream
  refine .bind (eat_operator_reads pushed.toUnderway) ?_
  rintro hasValue s₃ ⟨underway, le₃, -⟩
  refine .ite (fun _ => ?_) fun _ => ⟨underway.wait _, by omega⟩
  apply Reads.below underway (expression_reads readers underway.sound)
  intro value s₄ underway lt₄
  have lt : s.place < s₄.place := by omega
  have waits : s₄.nodes.size ∈ (c.waiting [s₄.nodes.size]).loose := List.mem_cons_self
  have underway := underway.wait [s₄.nodes.size]
  have valid := underway.sound.toValid
  obtain ⟨n, found, -, -, low, -, high⟩ := underway.pending.each value (by simp)
  have pending := underway.pending.to_last (i := value) rfl
  rw [span_at_of_eq found] at pending
  have anchored := ((underway.begun lt).anchored_start underway.onward valid).merge
    (valid.wellFormed.anchored value n found)
  refine .bind (node_at_reads found) ?_
  rintro _ _ ⟨rfl, rfl⟩
  refine (push_reads underway lt pending anchored ?_ ?_ ?_ ?_ (.of_loose waits)
    ⟨fun _ _ _ _ => trivial, fun _ => trivial⟩).mono ?_
  · rw [Span.start_merge]
    exact Nat.min_le_left ..
  · rw [Span.stop_merge]
    exact Nat.le_max_right ..
  · rw [Span.start_merge]
    exact Nat.le_min.mpr ⟨Nat.le_refl _, low⟩
  · rw [Span.stop_merge]
    exact Nat.max_le.mpr ⟨underway.token_stop_le lt, high⟩
  · intro i s₅ pushed
    obtain rfl := pushed.index
    exact pushed.toMade

/-- The variables of a `static` statement belong to it once it is made. -/
theorem Pushed.settle {kind : NodeKind} {i : Nat} {s₁ s' : ParserState}
    (pushed : Pushed (c.waiting ids) origin kind ids s₁ i s') (isStatic : kind = .staticVariables) :
    Made c origin i s' where
  valid := pushed.valid
  sound := {
    toValid := pushed.sound.toValid
    depth := pushed.sound.depth
    lawful := fun none j n found => (pushed.sound.lawful none j n found).settle fun k member => by
      obtain ⟨m, there, same, children⟩ := pushed.node
      exact ⟨i, m, there, same.trans isStatic, children ▸ member⟩
    housed := pushed.sound.housed
    worded := pushed.sound.worded }
  onward := pushed.onward
  pending := pushed.pending
  begun := pushed.begun
  place_lt := pushed.place_lt

theorem static_variables_reads (readers : Readers c.depth g) (sound : Sound c s)
    (word : s.token.kind = .keyword .static_) :
    Reads s (Parser.staticVariables g) s (Made c s) := by
  apply Reads.advance sound.underway (by rw [word]; rfl)
  intro s₁ took
  have lt := took.place_lt
  refine .bind (.commaSeparated (c := c.waiting) (f := id) took.underway ?_) ?_
  · intro ids s₂ underway
    have reads := static_variable_reads (c := c.waiting ids) readers underway.sound
    refine (reads.from_ underway.onward).mono fun i s₃ made => ⟨?_, made.place_lt⟩
    refine (underway.then made.toUnderway).loosen rfl fun j member => ?_
    simpa [Setting.waiting, or_left_comm, or_assoc] using member
  rintro targets s₂ ⟨underway, lt₂⟩
  refine .bind (finish_statement_reads underway (by omega)) ?_
  rintro _ s₃ ⟨rfl, -, -, underway, lt₃⟩
  refine (finish_reads underway (by omega) (.of_plain rfl) (.of_plain rfl)).mono
    fun i s₄ pushed => ?_
  exact pushed.settle rfl

theorem expression_statement_reads (readers : Readers c.depth g) (sound : Sound c s) :
    Reads s (Parser.expressionStatement g) s (Made c s) := by
  refine .current <| .bind (readers.expression rfl sound) fun value s₁ operand => ?_
  have lt := operand.place_lt
  refine .bind (finish_statement_reads operand.toUnderway lt) ?_
  rintro _ s₂ ⟨rfl, rfl, isEnd, underway, lt₂⟩
  have lt₃ : s.place < s₁.advance.place := by omega
  have later := operand.sound.onward_advance
  have fits : Fits c s₁.advance .expressionStatement := ⟨fun _ _ _ _ => trivial, fun _ => trivial⟩
  refine (finish_reads underway lt₃ (.of_statement ?_) fits).mono fun i s₃ pushed => pushed.toMade
  intro text words spans spelled flat
  have kept := spans.kept underway.sound.toValid underway.onward operand.onward later isEnd
    (underway.start_eq lt₃) (underway.stop_eq lt₃) spelled
  have within : ∀ t ∈ taken s s₁, t.kind = .closeTag ∨ t.span.start < s₁.advance.last.stop :=
    fun t member => (taken_within operand.sound.toValid operand.onward member).imp_right fun lt =>
      Nat.lt_of_lt_of_le lt later.stop_le
  have spells : Spells s₁.advance.nodes value (taken s s₁) :=
    operand.spelled.develops later.grown.develops
  exact spells.statement (fun t member => (within t member).imp_right decide_eq_true) kept spelled
    flat

theorem names_function_reads : Reads origin Parser.namesFunction s fun _ s' => s' = s := by
  refine .ahead <| .ite (fun _ => rfl) fun _ => ?_
  exact rfl

theorem keyword_statement_reads (readers : Readers c.depth g) {word : Keyword} (sound : Sound c s)
    (kind : s.token.kind = .keyword word) :
    Reads s (Parser.keywordStatement g word) s (Made c s) := by
  have ordinary : s.token.kind.isOrdinary := by rw [kind]; rfl
  unfold Parser.keywordStatement
  split
  · exact (if_statement_reads readers sound kind).made
  · exact (while_statement_reads readers sound kind).made
  · exact (do_while_statement_reads readers sound kind).made
  · exact (for_statement_reads readers sound kind).made
  · exact (foreach_statement_reads readers sound kind).made
  · exact (switch_statement_reads readers sound kind).made
  · exact (jump_reads readers sound ordinary rfl).made
  · exact (jump_reads readers sound ordinary rfl).made
  · exact (jump_reads readers sound ordinary rfl).made
  · exact (list_statement_reads readers sound ordinary rfl).made
  · exact (try_statement_reads readers sound kind).made
  · exact (throw_statement_reads readers sound kind).made
  · exact (list_statement_reads readers sound ordinary rfl).made
  · exact (unset_statement_reads readers sound kind).made
  · exact (constant_declaration_reads readers sound kind).made
  · refine .ahead <| .ite (fun _ => ?_) fun _ => expression_statement_reads readers sound
    exact static_variables_reads readers sound kind
  · refine .bind names_function_reads ?_
    rintro named _ rfl
    refine .ite (fun _ => ?_) fun _ => expression_statement_reads readers sound
    exact function_declaration_reads readers sound kind
  · exact class_declaration_reads readers sound
  · exact class_declaration_reads readers sound
  · exact class_declaration_reads readers sound
  · exact interface_declaration_reads readers sound kind
  · exact trait_declaration_reads readers sound kind
  · exact expression_statement_reads readers sound

theorem statement_reads (readers : Readers c.depth g) (sound : Sound c s) :
    Reads s (Parser.statement g) s (Stated c s) := by
  have some_ {p : Parser Nat} (reads : Reads s p s (Made c s)) :
      Reads s (some <$> p) s (Stated c s) :=
    .map reads
  have empty (isEnd : s.token.kind.isStatementEnd) :
      Reads s (do Parser.skip; return none) s (Stated c s) :=
    sound.close isEnd
  refine .current ?_
  split
  next kind => exact empty (by rw [kind]; rfl)
  next kind => exact empty (by rw [kind]; rfl)
  next => exact some_ (block_reads readers sound).made
  next word kind => exact some_ (keyword_statement_reads readers sound kind)
  next => exact some_ (expression_statement_reads readers sound)

end PhpAnalyser
