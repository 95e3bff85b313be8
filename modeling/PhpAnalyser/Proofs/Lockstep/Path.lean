import Mathlib.Logic.Relation
import PhpAnalyser.Proofs.Grammar.Fatal
import PhpAnalyser.Proofs.Lockstep.Unit
/-!
The way of a parser through a file, one statement after the other. What follows a namespace without
braces is read as a part of it, but the way goes on there as it does in a file without namespaces.
-/
namespace PhpAnalyser

variable {α β : Type} {E : Excerpt} {c : Setting} {s s' t t' z : ParserState}

def opening (fuel : Nat) : Parser (List Nat ⊕ Token × String) := do
  let token ← Parser.current
  if token.kind = .keyword .namespace_ && (← Parser.ahead 1).kind ≠ .backslash then
    let (start, package, braced) ← spaceHead
    if braced then
      let ids ← spaceContents (Parser.topStatement fuel) true
      return .inl [← Parser.finish (.namespace_ package) start.span ids]
    return .inr (start, package)
  if token.kind = .keyword .use_ then return .inl (← Parser.imports)
  return .inl (← Parser.outermost.statement).toList

def closing (fuel : Nat) : List Nat ⊕ Token × String → Parser (List Nat)
  | .inl ids => return ids
  | .inr (start, package) => do
    let ids ← Parser.recovering (fun t => t.kind = .keyword .namespace_) (Parser.topStatement fuel)
    return [← Parser.finish (.namespace_ package) start.span ids]

theorem top_statement_eq (fuel : Nat) :
    Parser.topStatement (fuel + 1) = opening fuel >>= closing fuel := by
  simp only [Parser.topStatement, opening, namespace_declaration_eq, bind_assoc]
  congr 1
  funext token
  congr 1
  funext next
  split
  · simp only [bind_assoc]
    congr 1
    funext ⟨start, package, braced⟩
    cases braced <;> simp [closing, spaceContents]
  split <;> simp [closing]

def lead (fuel : Nat) : Parser (List Nat) := do
  match ← opening fuel with
  | .inl ids => return ids
  | .inr _ => return []

theorem opening_meets {fuel fuel' : Nat} (twin : Twin E s t) :
    Meets E (opening fuel) (opening fuel') s t (Closes E (Frayed E (Hale 0 t)) Any) := by
  refine .current <| .ahead <| .ite ?_ (fun opens => ?_) fun _ => .ite ?_ (fun uses => ?_) fun _ => ?_
  · have same := twin.guarded (p := fun kind => kind = .keyword .namespace_)
      (q := fun kind => kind ≠ .backslash) rfl
    exact iff_of_eq (congrArg (· = true) same)
  · rw [Bool.and_eq_true, decide_eq_true_eq] at opens
    refine (space_head_meets twin opens.1).behind ?_
    rintro ⟨start, package, braced⟩ s ⟨start', package', _⟩ t near ⟨rfl, inside⟩
    refine .ite .rfl (fun isBraced => ?_) fun _ => .pure (.inr ⟨near, trivial⟩)
    refine (space_braces_meets (inside isBraced) fun s t => top_statement_free _ _).behind ?_
    intro ids s ids' t near _
    exact (finish_builds.quiet.level finish_builds.quiet near).behind fun i s j t near _ =>
      .pure (.inr ⟨near, trivial⟩)
  · rw [twin.like.kind]
  · exact (imports_meets twin (by rw [uses]; nofun)).behind fun ids s ids' t near _ =>
      .pure (.inr ⟨near, trivial⟩)
  · exact (lockstep_outermost.statement s t twin).fringe (fun _ => .pure _) fun _ => .pure _

/-- Both texts are read side by side up to the end of the first, unless a conditional goes on. -/
theorem lead_meets {fuel fuel' : Nat} (twin : Twin E s t) :
    Meets E (lead fuel) (lead fuel') s t (Closes E (Frayed E (Hale 0 t)) Any) := by
  have quiet (r : List Nat ⊕ Token × String) : Quiet (match r with
      | .inl ids => return ids
      | .inr _ => return [] : Parser (List Nat)) := by
    cases r with
    | inl ids => exact .pure ids
    | inr _ => exact .pure []
  exact (opening_meets twin).fringe quiet quiet

theorem space_head_reads (sound : Sound c s) (outside : c.space = none)
    (word : s.token.kind = .keyword .namespace_) :
    Reads s spaceHead s fun _ s' => Underway c s s' [] ∧ s.place < s'.place := by
  apply Reads.advance sound.underway (by rw [word]; rfl)
  intro s₁ took
  have lt := took.place_lt
  refine .bind (package_name_reads took.underway) ?_
  rintro package s₂ ⟨⟨underway, le₂⟩, clean⟩
  let s₃ : ParserState := { s₂ with names := .ofNamespace package }
  refine .bind (R := fun _ s' => s' = s₃) rfl ?_
  rintro - _ rfl
  have renamed : Underway c s s₃ [] := underway.renamed (.inl outside) fun _ => clean
  have lt₃ : s.place < s₃.place := Nat.lt_of_lt_of_le lt le₂
  refine .bind (eat_reads renamed rfl) ?_
  rintro braced s₄ ⟨underway, le₄, -⟩
  have lt₄ : s.place < s₄.place := Nat.lt_of_lt_of_le lt₃ le₄
  refine .ite (fun _ => ⟨underway, lt₄⟩) fun _ => ?_
  refine .bind (.discard (Q := fun _ s' => Underway c s s' [] ∧ s.place < s'.place) ?_) ?_
  · refine (finish_statement_reads underway lt₄).mono ?_
    rintro _ s₅ ⟨-, -, -, closed, lt₅⟩
    exact ⟨closed, Nat.lt_trans lt₄ lt₅⟩
  · exact fun _ _ holds => holds

/-- Between two statements of a file, with fuel for all that may follow. -/
structure Between (fuel : Nat) (t : ParserState) : Prop where
  sound : Sound ⟨0, [], none⟩ t
  more : t.token.kind ≠ .eof
  enough : t.tokens.size ≤ t.place + (fuel + 1)

def Further (s s' : ParserState) : Prop :=
  Sound ⟨0, [], none⟩ s' ∧ Onward s s' ∧ s.place < s'.place

theorem run_inl {γ : Type} {p : Parser α} {f : α → β} {x : γ} :
    (p >>= fun a => pure (Sum.inl (f a)) : Parser (β ⊕ γ)) s ≠ some (.ok (.inr x), s') := by
  intro run
  rw [run_bind] at run
  rcases read : p s with - | ⟨e | a, s₁⟩ <;> rw [read] at run <;> cases run

/-- Only a namespace without braces is opened and not read. -/
theorem opening_space {fuel : Nat} {start : Token} {package : String}
    (run : opening fuel s = some (.ok (.inr (start, package)), s')) :
    s.token.kind = .keyword .namespace_ ∧
      spaceHead s = some (.ok (start, package, false), s') := by
  change (if _ then _ else _ : Parser _) s = _ at run
  split at run
  next opens =>
    rw [Bool.and_eq_true, decide_eq_true_eq] at opens
    refine ⟨opens.1, ?_⟩
    rw [run_bind] at run
    rcases head : spaceHead s with - | ⟨e | ⟨start', package', _ | _⟩, s₁⟩ <;> rw [head] at run
    · cases run
    · cases run
    · cases run
      rfl
    · change (spaceContents (Parser.topStatement fuel) true >>= fun ids =>
        Parser.finish (.namespace_ package') start'.span ids >>= fun i => pure (Sum.inl [i]) :
          Parser (List Nat ⊕ Token × String)) s₁ = _ at run
      rw [run_bind] at run
      rcases inner : spaceContents (Parser.topStatement fuel) true s₁ with - | ⟨e | ids, s₂⟩ <;>
        rw [inner] at run
      · cases run
      · cases run
      · exact absurd run run_inl
  next =>
    split at run
    · exact absurd run run_inl
    · exact absurd run run_inl

theorem opening_reads {fuel : Nat} (between : Between fuel s) :
    Reads s (opening fuel) s fun _ => Further s := by
  have whole := top_statement_reads between.sound rfl rfl between.enough
  rw [top_statement_eq] at whole
  unfold Reads at whole ⊢
  rw [run_bind] at whole
  rcases step : opening fuel s with - | ⟨e | ids | ⟨start, package⟩, s'⟩ <;> rw [step] at whole
  · exact whole
  · exact whole
  · exact ⟨whole.1.1.sound, whole.1.1.onward, whole.1.2⟩
  · obtain ⟨word, head⟩ := opening_space step
    have reads := space_head_reads between.sound rfl word
    unfold Reads at reads
    rw [head] at reads
    exact ⟨reads.1.sound, reads.1.onward, reads.2⟩

theorem lead_reads {fuel : Nat} (between : Between fuel s) :
    Reads s (lead fuel) s fun _ => Further s := by
  refine .bind (opening_reads between) fun r s' holds => ?_
  cases r with
  | inl ids => exact holds
  | inr _ => exact holds

theorem list_step_reads {stop : Token → Bool} {item : Parser (List Nat)} {items : List Nat}
    (sound : Sound ⟨0, [], none⟩ s) (more : s.token.kind ≠ .eof) (goes : stop s.token = false)
    (each : Reads s item s fun _ => Further s) :
    Reads s (listStep stop item items) s fun _ => Further s := by
  unfold Reads at each ⊢
  rw [list_step_run more goes]
  revert each
  rcases item s with - | ⟨e | more, s'⟩
  · exact id
  · intro fails
    have resumes : Reads s (resume s.depth items e) s' fun _ => Further s :=
      (recover_reads sound fails).bind fun _ s' ⟨sound, onward, lt, _⟩ => ⟨sound, onward, lt⟩
    exact resumes
  · exact id

def leadStep (fuel : Nat) (items : List Nat) : Parser (ForInStep (List Nat)) :=
  listStep (fun _ => false) (lead fuel) items

def Step (t t' : ParserState) : Prop :=
  ∃ fuel items items', Between fuel t ∧ leadStep fuel items t = some (.ok (.yield items'), t')

def Dead (t : ParserState) (e : ParseError) (t' : ParserState) : Prop :=
  ∃ fuel items, Between fuel t ∧ leadStep fuel items t = some (.error e, t')

structure Silent (t t' : ParserState) : Prop where
  still : Still t t'
  sound : Sound ⟨0, [], none⟩ t'

/-- The parser goes from one statement of a file to another. -/
def Path : ParserState → ParserState → Prop :=
  Relation.ReflTransGen fun t t' => Step t t' ∨ Silent t t'

theorem lead_step_reads {fuel : Nat} {items : List Nat} (between : Between fuel t) :
    Reads t (leadStep fuel items) t fun _ => Further t :=
  list_step_reads between.sound between.more rfl (lead_reads between)

theorem Step.further (step : Step s s') : Further s s' := by
  obtain ⟨fuel, items, items', between, run⟩ := step
  have reads : Reads s (leadStep fuel items) s fun _ => Further s := lead_step_reads between
  unfold Reads at reads
  rw [run] at reads
  exact reads

structure Leads (s s' : ParserState) : Prop where
  sound : Sound ⟨0, [], none⟩ s'
  tokens : s'.tokens = s.tokens
  place_le : s.place ≤ s'.place
  errors : s.errors <+: s'.errors

theorem Path.leads (path : Path s s') (sound : Sound ⟨0, [], none⟩ s) : Leads s s' := by
  induction path with
  | refl => exact ⟨sound, rfl, Nat.le_refl _, List.prefix_rfl⟩
  | tail _ move ih =>
    rcases move with step | silent
    · obtain ⟨sound, onward, lt⟩ := step.further
      exact ⟨sound, onward.tokens.trans ih.tokens, Nat.le_trans ih.place_le (Nat.le_of_lt lt),
        ih.errors.trans onward.errors⟩
    · have still := silent.still
      refine ⟨silent.sound, ?_, ?_, ?_⟩
      · exact (congrArg TokenStream.tokens still.stream).trans ih.tokens
      · rw [show (_ : ParserState).place = _ from congrArg TokenStream.position still.stream]
        exact ih.place_le
      · rw [still.errors]
        exact ih.errors

/-- What came of a reader was come to on a path, or it was given up at the end of one. -/
def Comes (t : ParserState) : Outcome α → Prop
  | (.ok _, t') => Path t t'
  | (.error e, t') => ∃ t₁, Path t t₁ ∧ Dead t₁ e t'

def Ways (p : Parser α) (t : ParserState) : Prop := ∀ out, p t = some out → Comes t out

theorem Ways.bind {p : Parser α} {f : α → Parser β} (first : Ways p t)
    (next : ∀ a t', p t = some (.ok a, t') → Path t t' → Ways (f a) t') : Ways (p >>= f) t := by
  intro out run
  rw [run_bind] at run
  rcases step : p t with - | ⟨e | a, t₁⟩ <;> rw [step] at run
  · cases run
  · cases run
    exact first _ step
  · have path : Path t t₁ := first _ step
    have comes := next a t₁ step path out run
    rcases out with ⟨e | b, t'⟩
    · obtain ⟨t₂, path', dead⟩ := comes
      exact ⟨t₂, path.trans path', dead⟩
    · exact path.trans comes

theorem Ways.pure {a : α} : Ways (pure a) t := by
  rintro _ ⟨⟩
  exact .refl

/-- The statements of a list, if each is come to on a path. -/
theorem recovering_ways {stop : Token → Bool} {item : Parser (List Nat)}
    (sound : Sound ⟨0, [], none⟩ t)
    (each : ∀ items t', Leads t t' → t'.token.kind ≠ .eof → stop t'.token = false →
      Ways (listStep stop item items) t') : Ways (Parser.recovering stop item) t := by
  suffices ∀ fuel items t', Path t t' → Ways (Parser.iterate (listStep stop item) fuel items) t'
    from fun out run => this _ [] t .refl out run
  intro fuel
  induction fuel with
  | zero => exact fun _ _ _ _ no => nomatch no
  | succ fuel ih =>
    intro items t' path
    refine Ways.bind ?_ ?_
    · by_cases ends : t'.token.kind = .eof ∨ stop t'.token = true
      · intro out run
        rw [list_step_ends ends] at run
        cases run
        exact .refl
      · rw [not_or, Bool.not_eq_true] at ends
        exact each items t' (path.leads sound) ends.1 ends.2
    · rintro (items | items) t'' - path'
      · exact .pure
      · exact ih items t'' (path.trans path')

theorem lead_step_run {fuel : Nat} {items : List Nat} (more : t.token.kind ≠ .eof) :
    leadStep fuel items t = match opening fuel t with
      | some (.ok r, t') => some (.ok (.yield (items ++ r.elim id fun _ => [])), t')
      | some (.error e, t') => resume t.depth items e t'
      | none => none := by
  rw [leadStep, list_step_run more rfl, lead, run_bind]
  rcases opening fuel t with - | ⟨e | ids | x, t'⟩ <;> rfl

theorem resume_yields {e : ParseError} {depth : Nat} {items : List Nat}
    {r : ForInStep (List Nat)} (run : resume depth items e s = some (.ok r, s')) :
    r = .yield items := by
  rw [resume, run_bind] at run
  rcases again : Parser.recover depth e s with - | ⟨e | u, s₁⟩ <;> rw [again] at run <;> cases run
  rfl

/-- The statements in a namespace without braces are steps of their own. -/
theorem closing_ways {fuel : Nat} {x : Token × String} {out : Outcome (List Nat)}
    (sound : Sound ⟨0, [], none⟩ t)
    (inner : ∀ items t', Leads t t' → t'.token.kind ≠ .eof →
      decide (t'.token.kind = .keyword .namespace_) = false → Ways (listStep
        (fun t => t.kind = .keyword .namespace_) (Parser.topStatement fuel) items) t')
    (run : closing fuel (.inr x) t = some out)
    (sound' : ∀ ids, out.1 = .ok ids → Sound ⟨0, [], none⟩ out.2) :
    Comes t out ∧ ∀ e, out.1 = .error e → e.fault.isRecoverable = false := by
  obtain ⟨start, package⟩ := x
  rw [closing, run_bind] at run
  have items : Ways (Parser.recovering (fun t => t.kind = .keyword .namespace_)
    (Parser.topStatement fuel)) t := recovering_ways sound inner
  rcases step : Parser.recovering (fun t => t.kind = .keyword .namespace_)
    (Parser.topStatement fuel) t with - | ⟨e | ids, t₁⟩ <;> rw [step] at run
  · cases run
  · cases run
    refine ⟨items _ step, fun e' same => ?_⟩
    cases same
    exact Final.recovering _ _ _ step
  · have quiet : Quiet (do
        return [← Parser.finish (.namespace_ package) start.span ids] : Parser (List Nat)) :=
      .bind finish_builds.quiet fun i => .pure [i]
    obtain ⟨r, t'⟩ := out
    obtain ⟨⟨ids', rfl⟩, still⟩ := quiet _ _ _ run
    have path : Path t t₁ := items _ step
    exact ⟨path.tail (.inr ⟨still, sound' ids' rfl⟩), fun _ no => nomatch no⟩

/-- A statement is a step. So is the start of a namespace, and each statement in it. -/
theorem list_step_ways_of {fuel : Nat} {stop : Token → Bool} {items : List Nat}
    (between : Between fuel t) (goes : stop t.token = false)
    (inner : ∀ stop items t', Sound ⟨0, [], none⟩ t' → t'.token.kind ≠ .eof →
      t'.tokens.size ≤ t'.place + fuel → stop t'.token = false →
      Ways (listStep stop (Parser.topStatement fuel) items) t') :
    Ways (listStep stop (Parser.topStatement (fuel + 1)) items) t := by
  intro out run
  have step : leadStep fuel items t = _ := lead_step_run between.more
  rw [list_step_run between.more goes] at run
  have reads := top_statement_reads between.sound rfl rfl between.enough
  unfold Reads at reads
  rw [top_statement_eq, run_bind] at run reads
  rcases opened : opening fuel t with - | ⟨e | ids | x, t₁⟩ <;> rw [opened] at run step reads
  · cases run
  · -- an error at the statement is one of the step
    rcases out with ⟨e' | r, t'⟩
    · exact ⟨t, .refl, fuel, items, between, step.trans run⟩
    · obtain rfl := resume_yields run
      exact .single (.inl ⟨_, _, _, between, step.trans run⟩)
  · cases run
    exact .single (.inl ⟨_, _, _, between, step⟩)
  · have first : Step t t₁ := ⟨_, _, _, between, step⟩
    obtain ⟨sound, onward, lt⟩ := first.further
    rcases closed : closing fuel (.inr x) t₁ with - | ⟨r, t₂⟩ <;> simp only [closed] at run reads
    have comes := closing_ways sound (fun items t' leads more goes =>
      inner _ items t' leads.sound more ?_ goes) closed ?_
    · rcases r with e | ids
      · obtain ⟨⟨t₃, path, dead⟩, fatal⟩ := comes
        change resume t.depth items e t₂ = _ at run
        rw [resume_fatal (by simp [fatal e rfl])] at run
        cases run
        exact ⟨t₃, .head (.inl first) path, dead⟩
      · cases run
        exact .head (.inl first) comes.1
    · have tokens := leads.tokens.trans onward.tokens
      have le := leads.place_le
      have enough := between.enough
      rw [tokens]
      omega
    · rintro ids ⟨⟩
      exact reads.1.1.sound

theorem list_step_ways {fuel : Nat} {stop : Token → Bool} {items : List Nat}
    (between : Between fuel t) (goes : stop t.token = false) :
    Ways (listStep stop (Parser.topStatement (fuel + 1)) items) t := by
  induction fuel generalizing t stop items with
  | zero =>
    refine list_step_ways_of between goes fun stop items t' _ _ enough _ => ?_
    exact absurd t'.place_lt (Nat.not_lt_of_le enough)
  | succ fuel ih =>
    exact list_step_ways_of between goes fun stop items t' sound more enough =>
      ih ⟨sound, more, enough⟩

theorem unit_ways (sound : Sound ⟨0, [], none⟩ t) :
    Ways (Parser.recovering (fun _ => false) (do Parser.topStatement (← Parser.remaining))) t := by
  refine recovering_ways sound fun items t' leads more goes out run => ?_
  have low := t'.place_lt
  obtain ⟨fuel, same⟩ : ∃ fuel, t'.tokens.size - t'.place = fuel + 1 :=
    ⟨_, (Nat.succ_pred (by omega)).symm⟩
  have item : (do Parser.topStatement (← Parser.remaining) : Parser (List Nat)) t' =
      Parser.topStatement (fuel + 1) t' := by
    rw [← same]
    rfl
  have ways : Ways (listStep (fun _ => false) (Parser.topStatement (fuel + 1)) items) t' :=
    list_step_ways ⟨leads.sound, more, by omega⟩ rfl
  refine ways out ?_
  rw [list_step_run more rfl] at run ⊢
  rw [← item]
  exact run

theorem hull_quiet {ids : List Nat} : Quiet (Parser.hull ids) := by
  unfold Parser.hull
  split
  · exact node_at_quiet.bind fun _ => node_at_quiet.bind fun _ => .pure _
  · exact .pure _

/-- The way through a file ends where no token is left, or where the file is given up. These are the
errors found in it. -/
def Ends (t : ParserState) (errors : List ParseError) : Prop :=
  (t.token.kind = .eof ∧ t.errors = errors) ∨
    ∃ e t', Dead t e t' ∧ e.fault.isRecoverable = false ∧ t'.errors ++ [e] = errors

/-- A file is read along a path from its start to its end. It has a tree if no errors are found. -/
theorem parse_path (source : String) (file : Nat) :
    ∃ t errors, Path (.initial (.ofSource source)) t ∧ Ends t errors ∧
      if errors = [] then ∃ tree, parse source file = .ok tree
      else parse source file = .error errors := by
  have sound := sound_initial source
  have reads := compilation_unit_reads sound rfl rfl
  have items := items_reads (fun _ => false) (do Parser.topStatement (← Parser.remaining)) sound
    fun s₁ sound _ => .remaining <| top_statement_reads sound rfl rfl (by omega)
  have rest (ids : List Nat) : Quiet (do
      Parser.push .compilationUnit (← Parser.hull ids) ids : Parser Nat) :=
    hull_quiet.bind fun _ => push_builds.quiet
  have run : Parser.compilationUnit = (do
      let ids ← Parser.recovering (fun _ => false) (do Parser.topStatement (← Parser.remaining))
      Parser.push .compilationUnit (← Parser.hull ids) ids) := rfl
  unfold Reads at reads items
  unfold parse parseTokens parseTokens?
  rw [run, run_bind] at reads ⊢
  rcases step : Parser.recovering (fun _ => false) (do Parser.topStatement (← Parser.remaining))
    (.initial (.ofSource source)) with - | ⟨e | ids, t⟩ <;> rw [step] at reads items
  · exact reads.elim
  · obtain ⟨t', path, dead⟩ := unit_ways sound _ step
    have fatal := Final.recovering _ _ _ step
    exact ⟨t', t.errors ++ [e], path, .inr ⟨e, t, dead, fatal, rfl⟩, by simp⟩
  · have ends : t.token.kind = .eof := items.2.resolve_right fun no => nomatch no
    refine ⟨t, t.errors, unit_ways sound _ step, .inl ⟨ends, rfl⟩, ?_⟩
    dsimp only at reads ⊢
    rcases last : (do Parser.push .compilationUnit (← Parser.hull ids) ids : Parser Nat) t with
      - | ⟨r, t'⟩ <;> rw [last] at reads
    · exact reads.elim
    · obtain ⟨⟨root, rfl⟩, still⟩ := rest ids _ _ _ last
      rw [← still.errors]
      split
      next none => simp [none]
      next some => simp [some]

end PhpAnalyser
