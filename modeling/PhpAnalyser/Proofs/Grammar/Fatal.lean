import PhpAnalyser.Proofs.Grammar.Outcome
/-!
The errors that end the reading of a text, and what becomes of tokens that cannot be read.
-/
namespace PhpAnalyser

def Final (p : Parser α) : Prop :=
  ∀ s e s', p s = some (.error e, s') → e.fault.isRecoverable = false

namespace Final

variable {p : Parser α} {f : α → Parser β}

theorem pure {a : α} : Final (pure a : Parser α) := fun _ _ _ run => nomatch run

theorem stuck : Final (Parser.stuck : Parser α) := fun _ _ _ run => nomatch run

theorem get : Final (MonadState.get : Parser ParserState) := fun _ _ _ run => nomatch run

theorem set {s : ParserState} : Final (MonadState.set s : Parser PUnit) :=
  fun _ _ _ run => nomatch run

theorem modify {change : ParserState → ParserState} : Final (modify change : Parser PUnit) :=
  fun _ _ _ run => nomatch run

theorem throw {e : ParseError} (fatal : e.fault.isRecoverable = false) :
    Final (throw e : Parser α) := by
  intro s e' s' run
  cases run
  exact fatal

theorem bind (first : Final p) (second : ∀ a, Final (f a)) : Final (p >>= f) := by
  intro s e s' run
  rw [run_bind] at run
  cases read : p s with
  | none =>
    rw [read] at run
    cases run
  | some outcome =>
    obtain ⟨result, s₁⟩ := outcome
    rw [read] at run
    cases result with
    | error e₁ =>
      cases run
      exact first s _ _ read
    | ok a => exact second a s₁ e s' run

theorem ite {condition : Prop} [Decidable condition] {p q : Parser α}
    (yes : condition → Final p) (no : ¬condition → Final q) :
    Final (if condition then p else q) := by
  split
  · exact yes (by assumption)
  · exact no (by assumption)

theorem tryCatch {handler : ParseError → Parser α} (handled : ∀ e, Final (handler e)) :
    Final (tryCatch p handler) := by
  intro s e s' run
  rw [run_try_catch] at run
  cases read : p s with
  | none =>
    rw [read] at run
    cases run
  | some outcome =>
    obtain ⟨result, s₁⟩ := outcome
    rw [read] at run
    cases result with
    | error e₁ => exact handled e₁ s₁ e s' run
    | ok a => cases run

theorem iterate {step : β → Parser (ForInStep β)} (each : ∀ b, Final (step b)) (fuel : Nat)
    (b : β) : Final (Parser.iterate step fuel b) := by
  induction fuel generalizing b with
  | zero => exact stuck
  | succ fuel ih =>
    refine .bind (each b) fun next => ?_
    cases next with
    | done b => exact pure
    | yield b => exact ih b

theorem repeatFrom {step : β → Parser (ForInStep β)} {b : β} (each : ∀ b, Final (step b)) :
    Final (Parser.repeatFrom b step) :=
  .bind (.bind get fun _ => pure) fun _ => iterate each _ b

theorem nodeAt {i : Nat} : Final (Parser.nodeAt i) := by
  refine .bind get fun s => ?_
  cases s.nodes[i]? with
  | none => exact stuck
  | some n => exact pure

theorem push {kind : NodeKind} {span : Span} {children : List Nat} :
    Final (Parser.push kind span children) :=
  .bind get fun _ => .ite (fun _ => .bind set fun _ => pure) fun _ => stuck

theorem synchronize : Final Parser.synchronize := by
  refine .bind modify fun _ => .repeatFrom fun _ => .bind (.bind get fun _ => pure) fun token => ?_
  have skips (next : ForInStep Unit) : Final (do Parser.skip; return next) :=
    .bind modify fun _ => pure
  cases token.kind with
  | eof => exact pure
  | rightBrace => exact pure
  | semicolon => exact skips _
  | closeTag => exact skips _
  | keyword word => exact .ite (fun _ => pure) fun _ => skips _
  | _ => exact skips _

theorem recover {depth : Nat} {e : ParseError} : Final (Parser.recover depth e) :=
  .ite (fun _ => .bind modify fun _ => synchronize) fun no => throw (Bool.not_eq_true _ ▸ no)

/-- A list of items goes on behind every error that lets it. -/
theorem recovering {stop : Token → Bool} {item : Parser (List Nat)} :
    Final (Parser.recovering stop item) :=
  .repeatFrom fun _ => .bind get fun _ => .ite (fun _ => pure) fun _ =>
    .tryCatch fun _ => .bind recover fun _ => pure

theorem hull {ids : List Nat} : Final (Parser.hull ids) := by
  unfold Parser.hull
  split
  · exact .bind nodeAt fun _ => .bind nodeAt fun _ => pure
  · exact pure

theorem compilationUnit : Final Parser.compilationUnit :=
  .bind recovering fun _ => .bind hull fun _ => push

end Final

/-- A token that cannot be read makes reading fail. Either reading ended for good at that token or
in front of it, or an error in front of it made reading look for a token to go on at, and there is
none up to it. -/
theorem parse_error_token {source : String} {file k : Nat} {t : Token}
    (found : (scan source)[k]? = some t) (isError : t.kind.isError) :
    ∃ errors last, parse source file = .error errors ∧ errors.getLast? = some last ∧
      (last.fault.isRecoverable = false ∧ last.span.start ≤ t.span.start ∨
        Overlooked (scan source).toArray errors k) := by
  have found : (scan source).toArray[k]? = some t := by simpa using found
  rcases parse_run source file with ⟨s, root, complete, tokens, -, same⟩ | ⟨s, e, fails, run, same⟩
  · have overlooked := complete.passed k t (tokens ▸ found) isError
    obtain ⟨e, member, -⟩ := overlooked
    have some : s.errors ≠ [] := List.ne_nil_of_mem member
    refine ⟨s.errors, s.errors.getLast some, ?_, List.getLast?_eq_some_getLast some, ?_⟩
    · simp [parse, parseTokens, same, some]
    · exact .inr (tokens ▸ complete.passed k t (tokens ▸ found) isError)
  · have tokens : s.tokens = (scan source).toArray :=
      fails.onward.tokens.trans (tokens_initial source)
    refine ⟨s.errors ++ [e], e, ?_, by simp, ?_⟩
    · simp [parse, parseTokens, same]
    rw [← tokens] at found ⊢
    rcases Nat.lt_or_ge k s.place with before | behind
    · exact .inr (fails.valid.passed k t before found isError).more
    · have here := fails.valid.lexed.start_mono behind s.token_at found
      exact .inl ⟨Final.compilationUnit _ _ _ run, Nat.le_trans fails.start_le here⟩

theorem parse_error_token_open_string :
    (scan "<?php $a = 'open")[2]?.any (·.kind.isError) ∧
      ∃ errors last, parse "<?php $a = 'open" 0 = .error errors ∧ errors.getLast? = some last ∧
        (last.fault.isRecoverable = false ∧ last.span.start ≤ 11 ∨
          Overlooked (scan "<?php $a = 'open").toArray errors 2) := by
  have found : (scan "<?php $a = 'open")[2]?.map (fun t => (t.kind.isError, t.span.start)) =
      some (true, 11) := by decide +kernel
  cases same : (scan "<?php $a = 'open")[2]? with
  | none => simp [same] at found
  | some t =>
    simp only [same, Option.map_some, Option.some.injEq, Prod.mk.injEq] at found
    refine ⟨by simpa using found.1, ?_⟩
    rw [← found.2]
    exact parse_error_token same found.1

end PhpAnalyser
