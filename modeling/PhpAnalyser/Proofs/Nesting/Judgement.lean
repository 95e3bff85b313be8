import PhpAnalyser.Proofs.Lockstep.Unit
import PhpAnalyser.Proofs.Production.Statement
import PhpAnalyser.Proofs.Scope.Judgement
/-!
Readers that count how deep they are nested, beside readers that do not count. A reader that
counts comes back to the depth and to the type scope at which it was called, unless the nesting is
too deep. So the count is the number of readers that are really inside one another, and readers
without a count do the same if they refuse what would be nested too deep.
-/
namespace PhpAnalyser

def ParseError.marked (mark : ParseFault) (e : ParseError) : ParseError :=
  if e.fault.isTooDeep then { e with fault := mark } else e

def ParserState.uncounted (s : ParserState) : ParserState := { s with depth := 0 }

/-- What is left of an outcome without a count, with `mark` for the fault that the count finds. -/
def Outcome.uncounted (mark : ParseFault) (out : Outcome α) : Outcome α :=
  (out.1.mapError (·.marked mark), out.2.uncounted)

def Parser.overfull (mark : ParseFault) : Parser α := do throw ⟨mark, (← Parser.current).span⟩

/-- The outcomes from `s` of a reader that counts, and of one that does not count and has the fault
`mark` where the first one finds the nesting too deep. -/
inductive BackAt (mark : ParseFault) (s : ParserState) :
    Option (Outcome α) → Option (Outcome α) → Prop
  | stuck : BackAt mark s none none
  | ok {a : α} {s' : ParserState} (level : s'.depth = s.depth) (scope : s'.scope = s.scope) :
      BackAt mark s (some (.ok a, s')) (some (.ok a, s'.uncounted))
  | error {e : ParseError} {s' : ParserState} (other : e.fault.isTooDeep = false)
      (level : s'.depth = s.depth) (scope : s'.scope = s.scope) :
      BackAt mark s (some (.error e, s')) (some (.error e, s'.uncounted))
  | deep {limit : Nat} {span : Span} {s' : ParserState} (scope : s'.scope = s.scope) :
      BackAt mark s (some (.error ⟨.nestingTooDeep limit, span⟩, s'))
        (some (.error ⟨mark, span⟩, s'.uncounted))

/-- Called at `depth`, the reader `p` does what `q` does without a count. -/
def Counts (mark : ParseFault) (depth : Nat) (p q : Parser α) : Prop :=
  ∀ s, s.depth = depth → BackAt mark s (p s) (q s.uncounted)

abbrev Flat (mark : ParseFault) (depth : Nat) (p : Parser α) : Prop := Counts mark depth p p

variable {mark : ParseFault} {depth : Nat}

/-- What holds from a state holds from those at the same depth in the same scope. -/
theorem BackAt.trans {s s' : ParserState} {x y : Option (Outcome α)}
    (back : BackAt mark s' x y) (level : s'.depth = s.depth) (scope : s'.scope = s.scope) :
    BackAt mark s x y := by
  cases back with
  | stuck => exact .stuck
  | ok level' scope' => exact .ok (level'.trans level) (scope'.trans scope)
  | error other level' scope' => exact .error other (level'.trans level) (scope'.trans scope)
  | deep scope' => exact .deep (scope'.trans scope)

namespace Counts

variable {p q : Parser α}

theorem bind {f g : α → Parser β} (first : Counts mark depth p q)
    (second : ∀ a, Counts mark depth (f a) (g a)) : Counts mark depth (p >>= f) (q >>= g) := by
  intro s level
  have back := first s level
  rw [run_bind, run_bind]
  generalize p s = x at back ⊢
  generalize q s.uncounted = y at back ⊢
  cases back with
  | stuck => exact .stuck
  | ok level' scope => exact (second _ _ (level'.trans level)).trans level' scope
  | error other level' scope => exact .error other level' scope
  | deep scope => exact .deep scope

theorem pure (a : α) : Flat mark depth (pure a) := fun _ _ => .ok rfl rfl

theorem stuck : Flat mark depth (Parser.stuck : Parser α) := fun _ _ => .stuck

theorem throw {e : ParseError} (other : e.fault.isTooDeep = false) :
    Flat mark depth (throw e : Parser α) := fun _ _ => .error other rfl rfl

theorem ite {c : Prop} [Decidable c] {p' q' : Parser α} (yes : Counts mark depth p q)
    (no : Counts mark depth p' q') :
    Counts mark depth (if c then p else p') (if c then q else q') := by
  split
  · exact yes
  · exact no

/-- What is read next may use the state, but not its depth. -/
theorem get {f g : ParserState → Parser α} (next : ∀ s, Counts mark depth (f s) (g s.uncounted)) :
    Counts mark depth (MonadState.get >>= f) (MonadState.get >>= g) :=
  fun s level => next s s level

theorem modify {change : ParserState → ParserState} (level : ∀ s, (change s).depth = s.depth)
    (scope : ∀ s, (change s).scope = s.scope)
    (same : ∀ s, change s.uncounted = (change s).uncounted) :
    Flat mark depth (modify change : Parser PUnit) := by
  intro s _
  change BackAt mark s (some (.ok _, change s)) (some (.ok _, change s.uncounted))
  rw [same]
  exact .ok (level s) (scope s)

theorem withScope (scope : Option TypeScope) (counts : Counts mark depth p q) :
    Counts mark depth (Parser.withScope scope p) (Parser.withScope scope q) := by
  intro s level
  change BackAt mark s
    ((p { s with scope }).bind fun out => some (out.1, { out.2 with scope := s.scope }))
    ((q (ParserState.uncounted { s with scope })).bind fun out =>
      some (out.1, { out.2 with scope := s.scope }))
  have back := counts { s with scope } level
  generalize p { s with scope } = x at back ⊢
  generalize q (ParserState.uncounted { s with scope }) = y at back ⊢
  cases back with
  | stuck => exact .stuck
  | ok level' _ => exact .ok level' rfl
  | error other level' _ => exact .error other level' rfl
  | deep _ => exact .deep rfl

/-- Where there is room, what is nested is read one level deeper, and the count is restored. -/
theorem nested (room : depth < Parser.maxNesting) (counts : Counts mark (depth + 1) p q) :
    Counts mark depth (Parser.nested p) q := by
  intro s level
  have fine : ¬s.deeper.depth > Parser.maxNesting := by
    have deeper : s.deeper.depth = s.depth + 1 := rfl
    omega
  rw [nested_run, if_neg fine]
  change BackAt mark s ((p s.deeper).bind fun out => some (out.1, out.2.shallower))
    (q s.deeper.uncounted)
  have back := counts s.deeper (congrArg (· + 1) level)
  generalize p s.deeper = x at back ⊢
  generalize q s.deeper.uncounted = y at back ⊢
  cases back with
  | stuck => exact .stuck
  | ok level' scope => exact .ok (congrArg (· - 1) level') scope
  | error other level' scope => exact .error other (congrArg (· - 1) level') scope
  | deep scope => exact .deep scope

/-- Where there is no room, nothing is read. -/
theorem overfull (full : Parser.maxNesting ≤ depth) :
    Counts mark depth (Parser.nested p) (Parser.overfull mark) := by
  intro s level
  have deep : s.deeper.depth > Parser.maxNesting := by
    have deeper : s.deeper.depth = s.depth + 1 := rfl
    omega
  rw [nested_run, if_pos deep]
  exact .deep rfl

section Loops

variable {step step' : γ → Parser (ForInStep γ)} (each : ∀ b, Counts mark depth (step b) (step' b))
include each

theorem iterate (fuel : Nat) (b : γ) :
    Counts mark depth (Parser.iterate step fuel b) (Parser.iterate step' fuel b) := by
  induction fuel generalizing b with
  | zero => exact stuck
  | succ fuel ih =>
    refine .bind (each b) fun next => ?_
    cases next with
    | done b' => exact pure b'
    | yield b' => exact ih b'

omit each in
theorem remaining : Flat mark depth Parser.remaining := .get fun _ => pure _

theorem repeatFrom (b : γ) :
    Counts mark depth (Parser.repeatFrom b step) (Parser.repeatFrom b step') :=
  .bind remaining fun _ => iterate each _ b

end Loops

theorem current : Flat mark depth Parser.current := .get fun _ => pure _

theorem advance_uncounted (s : ParserState) : s.uncounted.advance = s.advance.uncounted := by
  by_cases ends : s.token.kind = .eof
  · have ends' : s.uncounted.token.kind = .eof := ends
    rw [advance_of_eof ends, advance_of_eof ends']
  · have more : s.uncounted.token.kind ≠ .eof := ends
    rw [advance_of_more ends, advance_of_more more]
    rfl

theorem skip : Flat mark depth Parser.skip :=
  modify (fun _ => depth_advance) Heeds.scope_advance advance_uncounted

theorem push (kind : NodeKind) (span : Span) (ids : List Nat) :
    Flat mark depth (Parser.push kind span ids) := by
  intro s _
  rw [Heeds.push_run, Heeds.push_run]
  change BackAt mark s (if ids.all (· < s.nodes.size) then _ else _)
    (if ids.all (· < s.nodes.size) then _ else _)
  split
  · exact .ok rfl rfl
  · exact .stuck

theorem setDocComment (i : Nat) (doc : Option String) :
    Flat mark depth (Parser.setDocComment i doc) := by
  intro s _
  change BackAt mark s ((if i < s.nodes.size then _ else _ : Parser Unit) s)
    ((if i < s.nodes.size then _ else _ : Parser Unit) s.uncounted)
  split
  · exact .ok rfl rfl
  · exact .stuck

theorem synchronize : Flat mark depth Parser.synchronize := by
  refine .bind skip fun _ => repeatFrom (fun _ => .bind current fun token => ?_) ()
  have skips (next : ForInStep Unit) : Flat mark depth (do Parser.skip; return next) :=
    .bind skip fun _ => pure next
  cases token.kind with
  | eof => exact pure _
  | rightBrace => exact pure _
  | semicolon => exact skips _
  | closeTag => exact skips _
  | keyword word => exact .ite (pure _) (skips _)
  | _ => exact skips _

/-- Recovery goes back to the depth of its caller, which is the one that an item leaves behind. -/
theorem recover {e : ParseError} (other : e.fault.isTooDeep = false) (s : ParserState) :
    Counts mark s.depth (Parser.recover s.depth e) (Parser.recover s.uncounted.depth e) := by
  refine .ite (.bind (fun s' level => ?_) fun _ => synchronize) (throw other)
  exact .ok level.symm rfl

theorem recover_fatal {e : ParseError} (fatal : e.fault.isRecoverable = false) (depth : Nat) :
    Parser.recover depth e = MonadExcept.throw e := by
  rw [Parser.recover, fatal]
  rfl

theorem tryCatch {handler handler' : ParseError → Parser α} {s : ParserState}
    (first : BackAt mark s (p s) (q s.uncounted))
    (handled : ∀ e, e.fault.isTooDeep = false → Counts mark s.depth (handler e) (handler' e))
    (deep : ∀ limit span s', s'.scope = s.scope →
      BackAt mark s (handler ⟨.nestingTooDeep limit, span⟩ s') (handler' ⟨mark, span⟩ s'.uncounted)) :
    BackAt mark s (MonadExcept.tryCatch p handler s)
      (MonadExcept.tryCatch q handler' s.uncounted) := by
  rw [run_try_catch, run_try_catch]
  generalize p s = x at first ⊢
  generalize q s.uncounted = y at first ⊢
  cases first with
  | stuck => exact .stuck
  | ok level scope => exact .ok level scope
  | error other level scope => exact (handled _ other _ level).trans level scope
  | deep scope => exact deep _ _ _ scope

/-- What is nested too deep stays an error. -/
theorem recovering {stop : Token → Bool} {item item' : Parser (List Nat)}
    (fatal : mark.isRecoverable = false) (each : Counts mark depth item item') :
    Counts mark depth (Parser.recovering stop item) (Parser.recovering stop item') := by
  refine repeatFrom (fun ids s level => ?_) []
  change BackAt mark s ((if s.stream.atEnd || stop s.stream.current then _ else _ : Parser _) s)
    ((if s.stream.atEnd || stop s.stream.current then _ else _ : Parser _) s.uncounted)
  split
  · exact .ok rfl rfl
  refine tryCatch ?_ (fun e other => ?_) fun limit span s' scope => ?_
  · exact (each.bind fun more => pure _) s level
  · exact (recover other s).bind fun _ => pure _
  · rw [recover_fatal rfl, recover_fatal fatal]
    exact .deep scope

theorem sameView (s : ParserState) : SameView .same s s.uncounted :=
  { SameView.refl .same s with }

/-- Nothing is asked of what is read, but that both readers do the same. -/
def judgement (mark : ParseFault) (depth : Nat) (fatal : mark.isRecoverable = false) :
    Judgement where
  toLikeness := .same
  facts := .none
  node _ _ _ := True
  dollar _ _ := True
  Says _ _ _ _ p q _ := Counts mark depth p q
  node_mono low _ := low
  dollar_of_node := id
  node_of_dollar := id
  says_pure := by
    intro _ _ _ _ _ v a b same _ _
    obtain rfl := v.eq trivial a b same
    exact pure a
  says_bind := fun {_ _ _ _ _ _ _ _ _ _ _ v _} first second =>
    first.bind fun a => second a a (v.refl a)
  says_weaken _ _ := id
  says_holding _ := id
  says_stuck := stuck
  says_throw := by
    rintro _ _ _ _ _ _ _ _ _ other rfl
    exact throw other
  says_look next := .get fun s => next s _ (sameView s) trivial fun _ inexact => (inexact trivial).elim
  says_skip := skip
  says_name := id
  says_push := by
    rintro _ _ _ _ _ kind a _ ids - - rfl - - -
    exact push kind a ids
  says_take := by
    rintro _ _ _ _ _ kind a _ base ids - rfl - - - -
    exact push kind a _
  says_dollar := by
    rintro _ _ _ a _ i rfl -
    exact push _ a [i]
  says_doc := setDocComment
  says_within _ := withScope _
  says_recovering _ := recovering fatal

theorem of_said {fatal : mark.isRecoverable = false} {n : Nat}
    {v : Verdict (judgement mark depth fatal).exact α}
    (said : (judgement mark depth fatal).Says none True True n p q v) : Counts mark depth p q :=
  said

end Counts

end PhpAnalyser
