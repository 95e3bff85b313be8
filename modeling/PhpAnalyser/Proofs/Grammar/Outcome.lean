import PhpAnalyser.Proofs.Grammar.Unit
/-!
What comes of a source text: the tree of a text without faults, or errors in the order of the text.
-/
namespace PhpAnalyser

/-- Errors in the order of a text, of which only the last can have ended the reading of it. -/
structure Disciplined (source : String) (errors : List ParseError) : Prop where
  nonempty : errors ≠ []
  increasing : errors.Pairwise fun e f => e.span.start < f.span.start
  inside : ∀ e ∈ errors, e.span.start ≤ e.span.stop ∧ e.span.stop ≤ source.utf8ByteSize
  fatal_last : ∀ e ∈ errors.dropLast, ∃ expected found, e.fault = .unexpectedToken expected found

theorem tokens_initial (source : String) :
    (ParserState.initial (.ofSource source)).tokens = (scan source).toArray :=
  tokens_of_source source

theorem sound_start {ts : List Token} (lexed : Lexed (TokenStream.close ts).toArray) :
    Sound ⟨0, [], none⟩ (.initial (.ofTokens ts)) where
  lexed := lexed
  wellFormed := by
    refine ⟨⟨?_, ?_, ?_, ?_⟩, ?_, ?_⟩ <;> simp [ParserState.initial]
  last := .inl rfl
  last_le := Nat.zero_le _
  taken _ _ low := absurd low (Nat.not_lt_zero _)
  noted _ none := nomatch none
  sorted := .nil
  passed _ _ low := absurd low (Nat.not_lt_zero _)
  depth := rfl
  lawful := by simp [ParserState.initial]
  housed _ _ _ no := nomatch no
  worded _ := ⟨.empty, by simp [ParserState.initial]⟩

theorem sound_initial (source : String) :
    Sound ⟨0, [], none⟩ (.initial (.ofSource source)) :=
  sound_start ((close_scan source).symm ▸ lexed_scan source)

theorem token_inside {source : String} {t : Token} (member : t ∈ scan source) :
    t.span.start ≤ t.span.stop ∧ t.span.stop ≤ source.utf8ByteSize := by
  obtain ⟨before, after, cut⟩ := List.append_of_mem member
  exact ⟨((tiled_ordered (tiled_scan source)).1 t member).2,
    (scan_in_place cut).stop_valid.le_rawEndPos⟩

theorem unexpected_of_recoverable {fault : ParseFault} (recoverable : fault.isRecoverable) :
    ∃ expected found, fault = .unexpectedToken expected found := by
  cases fault with
  | unexpectedToken expected found => exact ⟨expected, found, rfl⟩
  | _ => cases recoverable

theorem error_inside {source : String} {e : ParseError}
    (located : ∃ t ∈ (scan source).toArray, t.span = e.span) :
    e.span.start ≤ e.span.stop ∧ e.span.stop ≤ source.utf8ByteSize := by
  obtain ⟨t, member, same⟩ := located
  exact same ▸ token_inside (List.mem_toArray.mp member)

theorem Complete.disciplined {source : String} {s : ParserState} (complete : Complete s)
    (tokens : s.tokens = (scan source).toArray) (some : s.errors ≠ []) :
    Disciplined source s.errors where
  nonempty := some
  increasing := complete.sorted
  inside e member := error_inside (tokens ▸ (complete.noted e member).2)
  fatal_last e member :=
    unexpected_of_recoverable (complete.noted e ((List.dropLast_sublist _).subset member)).1

theorem Fails.disciplined {source : String} {s s' : ParserState} {e : ParseError}
    (fails : Fails s e s') (tokens : s.tokens = (scan source).toArray) :
    Disciplined source (s'.errors ++ [e]) where
  nonempty := by simp
  increasing := by
    refine List.pairwise_append.mpr ⟨fails.valid.sorted, List.pairwise_singleton .., ?_⟩
    intro f member last isLast
    rw [List.mem_singleton.mp isLast]
    exact fails.noted_lt f member
  inside f member := by
    have tokens := fails.onward.tokens.trans tokens
    rcases List.mem_append.mp member with member | member
    · exact error_inside (tokens ▸ (fails.valid.noted f member).2.1)
    · rw [List.mem_singleton.mp member]
      exact error_inside (tokens ▸ fails.located)
  fatal_last f member := by
    rw [List.dropLast_concat] at member
    exact unexpected_of_recoverable (fails.valid.noted f member).1

/-- The parser is never stuck: it comes to the end of a text, or it fails on the way. -/
theorem parse_run (source : String) (file : Nat) :
    (∃ s root, Complete s ∧ s.tokens = (scan source).toArray ∧ (s.errors = [] → Laid s.nodes root) ∧
      parseTokens? (.ofSource source) file =
        some (if s.errors.isEmpty then .ok ⟨file, s.nodes, root⟩ else .error s.errors)) ∨
    ∃ s e, Fails (.initial (.ofSource source)) e s ∧
      Parser.compilationUnit (.initial (.ofSource source)) = some (.error e, s) ∧
      parseTokens? (.ofSource source) file = some (.error (s.errors ++ [e])) := by
  have reads := compilation_unit_reads (sound_initial source) rfl rfl
  unfold Reads at reads
  unfold parseTokens?
  revert reads
  rcases Parser.compilationUnit (.initial (.ofSource source)) with - | ⟨e | root, s⟩
  · exact False.elim
  · exact fun fails => .inr ⟨s, e, fails, rfl, rfl⟩
  · exact fun ⟨complete, same, laid⟩ =>
      .inl ⟨s, root, complete, same.trans (tokens_initial source), laid, rfl⟩

/-- A text has a complete tree, or it has errors. -/
theorem parse_cases (source : String) (file : Nat) :
    (∃ s root, parseTokens? (.ofSource source) file = some (.ok ⟨file, s.nodes, root⟩) ∧
      Complete s ∧ s.errors = [] ∧ s.tokens = (scan source).toArray) ∨
    ∃ errors, parseTokens? (.ofSource source) file = some (.error errors) ∧
      Disciplined source errors := by
  rcases parse_run source file with ⟨s, root, complete, tokens, -, same⟩ | ⟨s, e, fails, -, same⟩
  · by_cases none : s.errors = []
    · exact .inl ⟨s, root, by simp [same, none], complete, none, tokens⟩
    · exact .inr ⟨s.errors, by simp [same, none], complete.disciplined tokens none⟩
  · exact .inr ⟨_, same, fails.disciplined (tokens_initial source)⟩

/-- Every text is read to an end, without a look at a token or a node that is not there. -/
theorem parse_total (source : String) (file : Nat) :
    ∃ outcome, parseTokens? (.ofSource source) file = some outcome ∧
      parse source file = outcome ∧
      match outcome with
      | .ok _ => ∀ t ∈ scan source, t.kind.isError = false
      | .error errors => Disciplined source errors := by
  rcases parse_cases source file with
    ⟨s, root, same, complete, none, tokens⟩ | ⟨errors, same, disciplined⟩
  · refine ⟨_, same, ?_, fun t member => ?_⟩
    · rw [parse, parseTokens, same, Option.getD_some]
    · exact complete.clean none t (tokens ▸ List.mem_toArray.mpr member)
  · refine ⟨_, same, ?_, disciplined⟩
    rw [parse, parseTokens, same, Option.getD_some]

/-- The state behind an accepted text. -/
theorem complete_of_accepted {source : String} {file : Nat} {t : SyntaxTree}
    (accepted : parse source file = .ok t) :
    ∃ s : ParserState, t.nodes = s.nodes ∧ Complete s ∧ s.errors = [] ∧
      s.tokens = (scan source).toArray := by
  rcases parse_cases source file with ⟨s, root, same, complete, none, tokens⟩ | ⟨errors, same, -⟩
  · rw [parse, parseTokens, same, Option.getD_some] at accepted
    cases accepted
    exact ⟨s, rfl, complete, none, tokens⟩
  · rw [parse, parseTokens, same, Option.getD_some] at accepted
    cases accepted

/-- The tree of an accepted text is linked both ways, and its spans nest and are made of tokens. -/
theorem parse_shaped {source : String} {file : Nat} {t : SyntaxTree}
    (accepted : parse source file = .ok t) : Shaped (scan source).toArray t.nodes := by
  obtain ⟨s, nodes, complete, -, tokens⟩ := complete_of_accepted accepted
  rw [nodes, ← tokens]
  exact complete.shaped

theorem parse_shaped_sum :
    ∃ t, parse "<?php $a + $b;" 0 = .ok t ∧ Shaped (scan "<?php $a + $b;").toArray t.nodes := by
  have accepted : (parse "<?php $a + $b;" 0).isOk = true := by decide +kernel
  cases same : parse "<?php $a + $b;" 0 with
  | ok t => exact ⟨t, rfl, parse_shaped same⟩
  | error errors => simp [same, Except.isOk, Except.toBool] at accepted

end PhpAnalyser
