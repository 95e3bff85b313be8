import PhpAnalyser.Proofs.Grammar.Statement
import PhpAnalyser.Proofs.Lockstep.Declaration
/-!
The productions of statements, read side by side. When the text of its own ends, a conditional
without braces may go on in the whole text; everything else ends there too.
-/
namespace PhpAnalyser

variable {α β γ δ : Type} {E : Excerpt} {depth : Nat} {g : Nested} {s t : ParserState}

def Firm (depth : Nat) (t : ParserState) : Prop :=
  ∃ c : Setting, c.depth = depth ∧ Sound c t ∧ Anchored t.tokens t.last

theorem Firm.hale (firm : Firm depth t) : Hale depth t := by
  obtain ⟨c, same, sound, -⟩ := firm
  exact ⟨c, same, sound⟩

theorem Hale.firm {word : Keyword} (hale : Hale depth t) (kind : t.token.kind = .keyword word) :
    Firm depth t.advance := by
  obtain ⟨c, same, sound⟩ := hale
  have ordinary : t.token.kind.isOrdinary := by rw [kind]; rfl
  have underway := sound.step ordinary
  refine ⟨c, same, underway.sound, ?_⟩
  rw [last_step ordinary, tokens_advance]
  exact .of_ordinary sound.lexed t.token_mem ordinary

theorem carries_of_reads {q : Parser β}
    (reads : ∀ c, c.depth = depth → Sound c t → Anchored t.tokens t.last →
      Reads t q t fun _ t' => Sound c t' ∧ Onward t t') : Carries (Firm depth) q t := by
  rintro ⟨c, same, sound, anchored⟩ r t' run
  have reads := reads c same sound anchored
  unfold Reads at reads
  rw [run] at reads
  rcases r with e | b
  · exact ⟨reads.onward.errors, fun _ no => nomatch no⟩
  · refine ⟨reads.2.errors, fun _ _ => ⟨c, same, reads.1, ?_⟩⟩
    refine reads.1.last.resolve_left fun origin => ?_
    have extent := anchored.extent
    have stop_le := reads.2.stop_le
    rw [origin] at stop_le
    exact Nat.not_lt_zero _ (Nat.lt_of_lt_of_le extent stop_le)

namespace Meets

variable {p : Parser α} {q : Parser β} {R : α → ParserState → β → ParserState → Prop}
  {f : α → Parser γ} {f' : β → Parser δ} {R' : γ → ParserState → δ → ParserState → Prop}
  {H : Prop}

theorem weaken {H' : Prop} (imp : H → H') (meets : Meets E p q s t (Closes E (Frayed E H') R)) :
    Meets E p q s t (Closes E (Frayed E H) R) :=
  meets.mono fun _ _ _ holds => holds.imp_left fun frayed =>
    ⟨frayed.1, fun sound => frayed.2 (imp sound)⟩

/-- What is frayed behind a reader was read from a sound state if that reader led to one. -/
theorem onward (first : Meets E p q s t (Steadily E R)) (carries : Carries (Firm depth) q t)
    (next : ∀ a s' b t', Twin E s' t' → R a s' b t' →
      Meets E (f a) (f' b) s' t' (Closes E (Frayed E (Firm depth t')) R')) :
    Meets E (p >>= f) (q >>= f') s t (Closes E (Frayed E (Firm depth t)) R') := by
  refine first.sequel (fun a s' b t' run holds => ?_) fun _ _ _ _ _ no => no.elim
  exact (next a s' b t' holds.1 holds.2).weaken fun firm => (carries firm _ _ run).2 b rfl

/-- A frayed reader is followed by one that can do without a token. -/
theorem fray (first : Meets E p q s t (Closes E (Frayed E (Firm depth t)) R))
    (carries : Carries (Firm depth) q t)
    (idle : ∀ a s', s'.token.kind = .eof → Idle (f a) s')
    (grows : ∀ b t' r t'', Firm depth t' → f' b t' = some (r, t'') → t'.errors <+: t''.errors)
    (next : ∀ a s' b t', Near E s' t' → R a s' b t' →
      Meets E (f a) (f' b) s' t' (Closes E (Frayed E (Firm depth t')) R')) :
    Meets E (p >>= f) (q >>= f') s t (Closes E (Frayed E (Firm depth t)) R') := by
  refine first.sequel (fun a s' b t' run holds => ?_) fun a s' e t' run holds => ?_
  · rcases holds with ⟨ends, frayed⟩ | ⟨near, related⟩
    · intro out step
      refine (idle a s' ends).answers fun c s'' ends errors => .inl ⟨ends, fun firm => ?_⟩
      obtain ⟨torn, told⟩ := frayed firm
      refine ⟨torn, fun some => E.told_mono (told (errors ▸ some)) ?_⟩
      exact grows b t' out.1 out.2 ((carries firm _ _ run).2 b rfl) step
    · exact (next a s' b t' near related).weaken fun firm => (carries firm _ _ run).2 b rfl
  · obtain ⟨ends, frayed⟩ := holds.resolve_right id
    refine (idle a s' ends).answers fun c s'' ends errors => .inl ⟨ends, fun firm => ?_⟩
    exact ⟨(frayed firm).1, fun some => (frayed firm).2 (errors ▸ some)⟩

/-- A frayed reader is followed by one that takes no notice. -/
theorem fringe (first : Meets E p q s t (Closes E (Frayed E H) R)) (own : ∀ a, Quiet (f a))
    (whole : ∀ b, Quiet (f' b)) :
    Meets E (p >>= f) (q >>= f') s t (Closes E (Frayed E H) Any) := by
  refine first.sequel (fun a s' b t' run holds => ?_) fun a s' e t' run holds => ?_
  · rcases holds with ⟨ends, frayed⟩ | ⟨near, -⟩
    · intro out step
      have still := (whole b t' out.1 out.2 step).2
      refine ((own a).idle ends).answers fun c s'' ends errors => .inl ⟨ends, fun sound => ?_⟩
      rw [errors, still.errors]
      exact frayed sound
    · exact ((own a).level (whole b) near).closes
  · obtain ⟨ends, frayed⟩ := holds.resolve_right id
    refine ((own a).idle ends).answers fun c s'' ends errors => .inl ⟨ends, fun sound => ?_⟩
    exact ⟨(frayed sound).1, fun some => (frayed sound).2 (errors ▸ some)⟩

end Meets

theorem Meets.freely {p : Parser α} {q : Parser β} {parted : ParserState → ParserState → Prop}
    {R : α → ParserState → β → ParserState → Prop} (meets : Meets E p q s t (Closes E parted R)) :
    Meets E p q s t (Closes E Freely Any) := by
  refine meets.mono ?_
  rintro a s' ⟨_ | b, t'⟩ (⟨ends, -⟩ | both)
  · exact .inl ⟨ends, trivial⟩
  · exact both.elim
  · exact .inl ⟨ends, trivial⟩
  · exact .inr ⟨both.1, trivial⟩

/-- Statements between a colon and a closing word. -/
theorem body_free (nested : Lockstep E depth g) {closing : List Keyword} :
    Free E (Parser.body g true closing) := by
  intro s t twin
  refine (expect_steady (by nofun)).then twin fun start s start' t twin => ?_
  refine (statements_free nested (fun a b like => by rw [like.kind]) s t twin).last ?_ ?_
  · exact fun _ => finish_builds.quiet
  · exact fun _ => finish_builds.quiet

theorem body_meets (nested : Lockstep E depth g) {closing : List Keyword} (twin : Twin E s t) :
    Meets E (Parser.body g false closing) (Parser.body g false closing) s t
      (Closes E (Frayed E (Firm depth t)) Any) := by
  refine ((nested.statement s t twin).weaken Firm.hale).fringe (fun r => ?_) fun r => ?_
  all_goals
    cases r with
    | some id => exact .pure id
    | none => exact .get fun _ => push_builds.quiet

theorem carries_body (nested : Lockstep E depth g) {alternate : Bool} {closing : List Keyword} :
    Carries (Firm depth) (Parser.body g alternate closing) t := by
  refine carries_of_reads ?_
  rintro c rfl sound anchored
  exact (body_reads nested.readers sound anchored).mono fun _ _ bodied =>
    ⟨bodied.sound, bodied.onward⟩

theorem carries_condition (nested : Lockstep E depth g) :
    Carries (Firm depth) (Parser.condition g) t := by
  refine carries_of_reads ?_
  rintro c rfl sound -
  exact (condition_reads nested.readers sound).mono fun _ _ holds =>
    ⟨holds.1.sound, holds.1.onward⟩

theorem starved_close {word : Keyword} {expected : String} {kind : NodeKind} {start : Span}
    {children : List Nat} (ends : s.token.kind = .eof) :
    Starved (Parser.close true word expected kind start children) s :=
  starved_mark ends (by nofun)

theorem close_meets {word : Keyword} {expected : String} {kind kind' : NodeKind}
    {start start' : Span} {ids ids' : List Nat} (twin : Twin E s t) :
    Meets E (Parser.close true word expected kind start ids)
      (Parser.close true word expected kind' start' ids') s t (Both (Near E) Any) :=
  .mark twin (by nofun) fun _ _ twin => push_statement_meets twin

theorem else_if_branch_free (nested : Lockstep E depth g) (twin : Twin E s t)
    (other : s.token.kind ≠ .semicolon) :
    Meets E (Parser.elseIfBranch g true) (Parser.elseIfBranch g true) s t
      (Closes E Freely Any) := by
  refine .advance twin other fun _ twin => ?_
  refine (condition_steady nested).then twin fun test s test' t twin => ?_
  exact (body_free nested s t twin).last (fun _ => finish_builds.quiet) fun _ =>
    finish_builds.quiet

theorem else_if_branch_meets (nested : Lockstep E depth g) (twin : Twin E s t)
    (word : s.token.kind = .keyword .elseIf_) :
    Meets E (Parser.elseIfBranch g false) (Parser.elseIfBranch g false) s t
      (Closes E (Frayed E (Firm depth t)) Any) := by
  have word' : t.token.kind = .keyword .elseIf_ := twin.like.kind ▸ word
  refine Meets.weaken (fun firm => firm.hale.firm word') ?_
  refine .advance twin (by rw [word]; nofun) fun _ twin => ?_
  refine (condition_steady nested _ _ twin).onward (carries_condition nested) ?_
  intro test s test' t twin _
  exact (body_meets nested twin).fringe (fun _ => finish_builds.quiet) fun _ =>
    finish_builds.quiet

theorem else_branch_free (nested : Lockstep E depth g) (twin : Twin E s t)
    (other : s.token.kind ≠ .semicolon) :
    Meets E (Parser.elseBranch g true) (Parser.elseBranch g true) s t (Closes E Freely Any) := by
  refine .advance twin other fun _ twin => ?_
  exact (body_free nested _ _ twin).last (fun _ => finish_builds.quiet) fun _ =>
    finish_builds.quiet

theorem else_branch_meets (nested : Lockstep E depth g) (twin : Twin E s t)
    (word : s.token.kind = .keyword .else_) :
    Meets E (Parser.elseBranch g false) (Parser.elseBranch g false) s t
      (Closes E (Frayed E (Firm depth t)) Any) := by
  have word' : t.token.kind = .keyword .else_ := twin.like.kind ▸ word
  refine Meets.weaken (fun firm => firm.hale.firm word') ?_
  refine .advance twin (by rw [word]; nofun) fun _ twin => ?_
  exact (body_meets nested twin).fringe (fun _ => finish_builds.quiet) fun _ =>
    finish_builds.quiet

def elseIfStep (g : Nested) (alternate : Bool) (others : List Nat) :
    Parser (ForInStep (List Nat)) := do
  if ← Parser.check (.keyword .elseIf_) then
    return .yield (others ++ [← Parser.elseIfBranch g alternate])
  return .done others

def conditionalTail (g : Nested) (alternate : Bool) (start : Span) (test first : Nat) :
    Parser Nat := do
  let others ← Parser.repeatFrom [] (elseIfStep g alternate)
  let last ← Parser.onlyIf (← Parser.check (.keyword .else_)) (Parser.elseBranch g alternate)
  Parser.close alternate .endIf_ "'endif'" .if_ start (test :: first :: others ++ last)

theorem idle_else_if_step {alternate : Bool} {others : List Nat} (ends : s.token.kind = .eof) :
    Idle (elseIfStep g alternate others) s :=
  Idle.step (check_ends ends (by nofun)) ((Quiet.pure _).idle ends)

/-- A closing word has to follow the branches of the alternative form. -/
theorem starved_conditional_tail {start : Span} {test first : Nat} (ends : s.token.kind = .eof) :
    Starved (conditionalTail g true start test first) s := by
  refine (Idle.repeatFrom (fun _ _ => idle_else_if_step) ends).starves fun others s ends => ?_
  refine Starved.step (check_ends ends (by nofun)) ?_
  exact Starved.step (a := []) rfl (starved_close ends)

theorem conditional_tail_colon (nested : Lockstep E depth g) {start start' : Span}
    {test first test' first' : Nat} (twin : Twin E s t) :
    Meets E (conditionalTail g true start test first) (conditionalTail g true start' test' first')
      s t (Both (Near E) Any) := by
  refine Meets.shut (.stray (R := Any) twin trivial ?_ fun _ _ => idle_else_if_step) ?_ ?_
  · intro others others' s t twin _
    refine .check twin (fun word => ?_) fun _ => .pure (.inr ⟨twin.toNear, trivial⟩)
    refine (else_if_branch_free nested twin (by rw [word]; nofun)).fall ?_ ?_
    · exact fun other s ends => (Quiet.pure _).idle ends
    · exact fun other s other' t twin _ => .pure (.inr ⟨twin.toNear, trivial⟩)
  · exact fun others s ends => Starved.step (check_ends ends (by nofun)) <|
      Starved.step (a := []) rfl (starved_close ends)
  intro others s others' t twin _
  refine .check twin (fun word => ?_) fun _ => ?_
  · refine Meets.shut ((else_branch_free nested twin (by rw [word]; nofun)).last ?_ ?_) ?_ ?_
    · exact fun _ => .pure _
    · exact fun _ => .pure _
    · exact fun last s ends => starved_close ends
    · exact fun last s last' t twin _ => close_meets twin
  · refine Meets.bind (R := Any) (.pure ⟨twin, trivial⟩) ?_
    exact fun last s last' t twin _ => close_meets twin

/-! The same without braces or colons, where a branch may be the last statement. -/

theorem carries_else_if_branch (nested : Lockstep E depth g) {alternate : Bool}
    (word : t.token.kind = .keyword .elseIf_) :
    Carries (Firm depth) (Parser.elseIfBranch g alternate) t := by
  refine carries_of_reads ?_
  rintro c rfl sound -
  exact (else_if_branch_reads nested.readers sound word).mono fun _ _ atom =>
    ⟨atom.sound, atom.onward⟩

theorem carries_else_branch (nested : Lockstep E depth g) {alternate : Bool}
    (word : t.token.kind = .keyword .else_) :
    Carries (Firm depth) (Parser.elseBranch g alternate) t := by
  refine carries_of_reads ?_
  rintro c rfl sound -
  exact (else_branch_reads nested.readers sound word).mono fun _ _ atom =>
    ⟨atom.sound, atom.onward⟩

theorem carries_else_if_step (nested : Lockstep E depth g) {alternate : Bool}
    {others : List Nat} : Carries (Firm depth) (elseIfStep g alternate others) t :=
  .check (fun word => (carries_else_if_branch nested word).bind fun _ _ => .pure) .pure

/-- Behind the end of a text of its own the whole text goes on with a branch. -/
theorem Near.torn (near : Near E s t) (ends : s.token.kind = .eof)
    (conditional : ∃ a ∈ E.own, a.kind = .keyword .if_)
    (word : t.token.kind = .keyword .else_ ∨ t.token.kind = .keyword .elseIf_) : E.Torn := by
  refine ⟨conditional, t.token, ?_, word⟩
  rw [← near.at_end ends, ← near.place, ← near.whole]
  exact t.token_at

theorem Near.parts {p : Parser α} {q : Parser β}
    {R : α → ParserState → β → ParserState → Prop} (near : Near E s t) (torn : E.Torn)
    (idle : Idle p s) (carries : Firm depth t → ∀ r t', q t = some (r, t') →
      t.errors <+: t'.errors) : Meets E p q s t (Closes E (Frayed E (Firm depth t)) R) := by
  intro out run
  refine idle.answers fun a s' ends errors => .inl ⟨ends, fun firm => ⟨torn, fun some => ?_⟩⟩
  exact E.told_mono (near.told (errors ▸ some)) (carries firm _ _ run)

/-- Another branch, which may stand behind the end of a text of its own. -/
theorem Meets.branch {word : Keyword} {f : Bool → Parser α} {f' : Bool → Parser β}
    {R : α → ParserState → β → ParserState → Prop}
    (near : Near E s t) (conditional : ∃ a ∈ E.own, a.kind = .keyword .if_)
    (branch : word = .else_ ∨ word = .elseIf_)
    (yes : Twin E s t → s.token.kind = .keyword word →
      Meets E (f true) (f' true) s t (Closes E (Frayed E (Firm depth t)) R))
    (idle : s.token.kind = .eof → Idle (f false) s)
    (carries : t.token.kind = .keyword word → Firm depth t → ∀ r t', f' true t = some (r, t') →
      t.errors <+: t'.errors)
    (no : Meets E (f false) (f' false) s t (Closes E (Frayed E (Firm depth t)) R)) :
    Meets E (Parser.check (.keyword word) >>= f) (Parser.check (.keyword word) >>= f') s t
      (Closes E (Frayed E (Firm depth t)) R) := by
  by_cases ends : s.token.kind = .eof
  · change Meets E _ (fun t => f' (decide (t.token.kind = .keyword word)) t) s t _
    have own : Idle (Parser.check (.keyword word) >>= f) s :=
      Idle.step (check_ends ends (by nofun)) (idle ends)
    by_cases same : t.token.kind = .keyword word
    · refine near.parts (near.torn ends conditional ?_) own ?_
      · rcases branch with rfl | rfl
        · exact .inl same
        · exact .inr same
      · simp only [same, decide_true]
        exact carries same
    · intro out run
      simp only [decide_eq_false same] at run
      rw [run_bind, check_ends ends (by nofun)]
      exact no out run
  · exact .check ⟨near, ends⟩ (yes ⟨near, ends⟩) fun _ => no

def Abreast (r : ForInStep α) (_ : ParserState) (r' : ForInStep β) (_ : ParserState) : Prop :=
  match r, r' with
  | .yield _, .yield _ => True
  | .done _, .done _ => True
  | _, _ => False

theorem else_ifs_meets (nested : Lockstep E depth g)
    (conditional : ∃ a ∈ E.own, a.kind = .keyword .if_) (fuel fuel' : Nat)
    (others others' : List Nat) (near : Near E s t) :
    Meets E (Parser.iterate (elseIfStep g false) fuel others)
      (Parser.iterate (elseIfStep g false) fuel' others') s t
      (Closes E (Frayed E (Firm depth t)) Any) := by
  induction fuel generalizing fuel' others others' s t with
  | zero => exact fun _ _ => trivial
  | succ fuel ih =>
    cases fuel' with
    | zero => exact fun _ no => nomatch no
    | succ fuel' =>
      refine Meets.fray (R := Abreast) ?_ (carries_else_if_step nested) ?_ ?_ ?_
      · refine .branch near conditional (.inr rfl) (fun twin word => ?_) ?_ ?_ ?_
        · refine (else_if_branch_meets nested twin word).fray
            (carries_else_if_branch nested (twin.like.kind ▸ word)) ?_ ?_ ?_
          · exact fun other s ends => (Quiet.pure _).idle ends
          · exact fun other t r t' firm run => (Carries.pure firm r t' run).1
          · exact fun other s other' t near _ => .pure (.inr ⟨near, trivial⟩)
        · exact fun ends => (Quiet.pure _).idle ends
        · exact fun word firm r t' run =>
            (((carries_else_if_branch nested word).bind fun _ _ => .pure) firm r t' run).1
        · exact .pure (.inr ⟨near, trivial⟩)
      · rintro (others | others) s ends
        · exact (Quiet.pure _).idle ends
        · exact idle_iterate (fun _ _ => idle_else_if_step) fuel others ends
      · rintro (others | others) t r t' firm run
        · exact (Carries.pure firm r t' run).1
        · have each (others : List Nat) (t : ParserState) :
              Carries (Firm depth) (elseIfStep g false others) t := carries_else_if_step nested
          exact (Carries.iterate each fuel' others firm r t' run).1
      · rintro (others | others) s (others' | others') t near same
        · exact .pure (.inr ⟨near, trivial⟩)
        · exact same.elim
        · exact same.elim
        · exact ih fuel' others others' near

theorem carries_last_branch (nested : Lockstep E depth g) {wanted : Bool}
    (word : wanted = true → t.token.kind = .keyword .else_) :
    Carries (Firm depth) (Parser.onlyIf wanted (Parser.elseBranch g false)) t := by
  cases wanted with
  | false => exact .pure
  | true => exact (carries_else_branch nested (word rfl)).bind fun _ _ => .pure

/-- The last branch of a conditional and the end of it. -/
theorem conditional_end_meets (nested : Lockstep E depth g)
    (conditional : ∃ a ∈ E.own, a.kind = .keyword .if_) {start start' : Span}
    {ids ids' : List Nat} (near : Near E s t) :
    Meets E
      (do
        let last ← Parser.onlyIf (← Parser.check (.keyword .else_)) (Parser.elseBranch g false)
        Parser.close false .endIf_ "'endif'" .if_ start (ids ++ last))
      (do
        let last ← Parser.onlyIf (← Parser.check (.keyword .else_)) (Parser.elseBranch g false)
        Parser.close false .endIf_ "'endif'" .if_ start' (ids' ++ last)) s t
      (Closes E (Frayed E (Firm depth t)) Any) := by
  have ends {kind : NodeKind} {start : Span} {ids : List Nat} : Quiet (do
      let last ← Parser.onlyIf false (Parser.elseBranch g false)
      Parser.finish kind start (ids ++ last)) :=
    .bind (.pure []) fun _ => finish_builds.quiet
  refine .branch near conditional (.inl rfl) (fun twin word => ?_) ends.idle (fun word => ?_) ?_
  · have last : Meets E (Parser.onlyIf true (Parser.elseBranch g false))
        (Parser.onlyIf true (Parser.elseBranch g false)) s t
        (Closes E (Frayed E (Firm depth t)) Any) :=
      (else_branch_meets nested twin word).fringe (fun _ => .pure _) fun _ => .pure _
    exact last.fringe (fun _ => finish_builds.quiet) fun _ => finish_builds.quiet
  · exact (carries_last_branch nested fun _ => word).grows fun _ => finish_builds.quiet
  · exact (ends.level ends near).closes

theorem idle_conditional_tail {start : Span} {test first : Nat} (ends : s.token.kind = .eof) :
    Idle (conditionalTail g false start test first) s := by
  refine (Idle.repeatFrom (fun _ _ => idle_else_if_step) ends).bind fun others s ends => ?_
  refine Idle.step (check_ends ends (by nofun)) ?_
  exact (Quiet.bind (.pure []) fun _ => finish_builds.quiet).idle ends

theorem carries_else_ifs (nested : Lockstep E depth g) {others : List Nat} :
    Carries (Firm depth) (Parser.repeatFrom others (elseIfStep g false)) t :=
  Carries.iterate (fun _ _ => carries_else_if_step nested) _ _

theorem conditional_tail_grows (nested : Lockstep E depth g) {start : Span} {test first : Nat}
    (firm : Firm depth t) (r : Except ParseError Nat) (t' : ParserState)
    (run : conditionalTail g false start test first t = some (r, t')) :
    t.errors <+: t'.errors := by
  rw [conditionalTail, run_bind] at run
  rcases step : Parser.repeatFrom [] (elseIfStep g false) t with - | ⟨e | others, t₁⟩ <;>
    rw [step] at run
  · cases run
  · cases run
    exact (carries_else_ifs nested firm _ _ step).1
  · obtain ⟨grows, sound⟩ := carries_else_ifs nested firm _ _ step
    have last := carries_last_branch (t := t₁) nested of_decide_eq_true
    exact grows.trans (last.grows (fun _ => finish_builds.quiet) (sound _ rfl) r t' run)

theorem conditional_tail_meets (nested : Lockstep E depth g)
    (conditional : ∃ a ∈ E.own, a.kind = .keyword .if_) {start start' : Span}
    {test first test' first' : Nat} (near : Near E s t) :
    Meets E (conditionalTail g false start test first)
      (conditionalTail g false start' test' first') s t
      (Closes E (Frayed E (Firm depth t)) Any) := by
  have branches : Meets E (Parser.repeatFrom [] (elseIfStep g false))
      (Parser.repeatFrom [] (elseIfStep g false)) s t (Closes E (Frayed E (Firm depth t)) Any) :=
    else_ifs_meets nested conditional _ _ [] [] near
  refine branches.fray (carries_else_ifs nested) (fun others s ends => ?_) ?_ ?_
  · refine Idle.step (check_ends ends (by nofun)) ?_
    exact (Quiet.bind (.pure []) fun _ => finish_builds.quiet).idle ends
  · intro others t r t' firm run
    have last := carries_last_branch (t := t) nested of_decide_eq_true
    exact last.grows (fun _ => finish_builds.quiet) firm r t' run
  · exact fun others s others' t near _ => conditional_end_meets nested conditional near

theorem if_statement_meets (nested : Lockstep E depth g) (twin : Twin E s t)
    (word : s.token.kind = .keyword .if_) :
    Meets E (Parser.ifStatement g) (Parser.ifStatement g) s t
      (Closes E (Frayed E (Hale depth t)) Any) := by
  have word' : t.token.kind = .keyword .if_ := twin.like.kind ▸ word
  have conditional : ∃ a ∈ E.own, a.kind = .keyword .if_ :=
    ⟨s.token, twin.own ▸ s.token_mem, word⟩
  refine Meets.weaken (fun hale => hale.firm word') ?_
  refine .advance twin (by rw [word]; nofun) fun _ twin => ?_
  refine (condition_steady nested _ _ twin).onward (carries_condition nested) ?_
  intro test s test' t twin _
  refine .check twin (fun _ => ?_) fun _ => ?_
  · refine (body_free nested s t twin).shut ?_ ?_
    · exact fun first s ends => starved_conditional_tail ends
    · exact fun first s first' t twin _ => (conditional_tail_colon nested twin).closes
  · refine (body_meets nested twin).fray (carries_body nested) ?_ ?_ ?_
    · exact fun first s ends => idle_conditional_tail ends
    · exact fun first t r t' firm => conditional_tail_grows nested firm r t'
    · exact fun first s first' t near _ => conditional_tail_meets nested conditional near

theorem while_statement_meets (nested : Lockstep E depth g) (twin : Twin E s t)
    (word : s.token.kind = .keyword .while_) :
    Meets E (Parser.whileStatement g) (Parser.whileStatement g) s t
      (Closes E (Frayed E (Hale depth t)) Any) := by
  have word' : t.token.kind = .keyword .while_ := twin.like.kind ▸ word
  refine Meets.weaken (fun hale => hale.firm word') ?_
  refine .advance twin (by rw [word]; nofun) fun _ twin => ?_
  refine (condition_steady nested _ _ twin).onward (carries_condition nested) ?_
  intro test s test' t twin _
  refine .check twin (fun _ => ?_) fun _ => ?_
  · refine (body_free nested s t twin).shut (fun _ s ends => starved_close ends) ?_
    exact fun inner s inner' t twin _ => (close_meets twin).closes
  · exact (body_meets nested twin).fringe (fun _ => finish_builds.quiet) fun _ =>
      finish_builds.quiet

theorem do_while_statement_meets (nested : Lockstep E depth g) (twin : Twin E s t)
    (other : s.token.kind ≠ .semicolon) :
    Meets E (Parser.doWhileStatement g) (Parser.doWhileStatement g) s t (Both (Near E) Any) := by
  refine .advance twin other fun _ twin => ?_
  refine (body_meets nested twin).shut (fun _ s ends => starved_mark ends (by nofun)) ?_
  intro inner s inner' t twin _
  refine .mark twin (by nofun) fun s t twin => ?_
  exact (condition_steady nested).then twin fun test s test' t twin => push_statement_meets twin

/-- Behind a semicolon no token is left to a text of its own. -/
theorem last_meets {expected : String} (twin : Twin E s t) :
    Meets E (discard (Parser.expect .semicolon expected))
      (discard (Parser.expect .semicolon expected)) s t
      (Closes E Freely fun _ _ _ _ => False) := by
  refine .map (g := fun _ => ()) (h := fun _ => ()) ?_
  refine .check twin (fun semicolon => ?_) fun _ => .unexpected twin
  rintro ⟨_ | _, t'⟩ -
  · exact .inl ⟨twin.last semicolon, trivial⟩
  · exact .inl ⟨twin.last semicolon, trivial⟩

/-- The first clause of a `for` ends with the semicolon that a text of its own ends with. -/
theorem for_clause_meets (nested : Lockstep E depth g) {kind : NodeKind} {expected : String}
    (twin : Twin E s t) :
    Meets E (Parser.forClause g kind .semicolon expected)
      (Parser.forClause g kind .semicolon expected) s t
      (Closes E Freely fun _ _ _ _ => False) := by
  refine .current <| .test ?_
  rw [← twin.like.kind]
  refine Meets.bind (R := Any) (.onlyIf twin (fun _ => ?_) fun _ => trivial) ?_
  · exact (expressions_steady nested).then twin fun ids s ids' t twin => finish_meets twin
  · intro clause s clause' t twin _
    exact (last_meets twin).fall (fun _ s ends => (Quiet.pure _).idle ends) fun _ _ _ _ _ no =>
      no.elim

theorem starved_for_clause (nested : Lockstep E depth g) {kind : NodeKind} {closing : TokenKind}
    {expected : String} (more : closing ≠ .eof) (ends : s.token.kind = .eof) :
    Starved (Parser.forClause g kind closing expected) s := by
  have start : Starved (Parser.expressions g) s :=
    Starved.repeatFrom (fun _ s ends => (nested.starved 0 s ends).bind) ends
  refine .current <| Starved.step (check_ends ends more) ?_
  exact start.bind.bind.bind

theorem for_statement_meets (nested : Lockstep E depth g) (twin : Twin E s t)
    (other : s.token.kind ≠ .semicolon) {P : Nat → ParserState → Outcome Nat → Prop} :
    Meets E (Parser.forStatement g) (Parser.forStatement g) s t P := by
  refine .advance twin other fun _ twin => .mark twin (by nofun) fun s t twin => ?_
  refine (for_clause_meets nested twin).shut ?_ fun _ _ _ _ _ no => no.elim
  exact fun first s ends => (starved_for_clause nested (by nofun) ends).bind

theorem foreach_targets_steady (nested : Lockstep E depth g) :
    Steady E (Parser.foreachTargets g) Any := by
  intro s t twin
  refine eat_operator_steady.same twin fun firstByRef s t twin => ?_
  refine (expression_steady nested).then twin fun first s first' t twin => ?_
  refine (eat_steady (by nofun)).same twin fun isKey s t twin => ?_
  refine .ite .rfl (fun _ => ?_) fun _ => .pure ⟨twin, trivial⟩
  refine eat_operator_steady.same twin fun byRef s t twin => ?_
  exact (expression_steady nested).then twin fun value s value' t twin => .pure ⟨twin, trivial⟩

theorem carries_mark {kind : TokenKind} {expected : String} (ordinary : kind.isOrdinary) :
    Carries (Firm depth) (discard (Parser.expect kind expected)) t := by
  refine carries_of_reads ?_
  rintro c rfl sound -
  exact (discard_expect_reads sound.underway ordinary).mono fun _ _ took =>
    ⟨took.underway.sound, took.onward⟩

theorem carries_expression (nested : Lockstep E depth g) :
    Carries (Firm depth) (Parser.expression g) t := by
  refine carries_of_reads ?_
  rintro c rfl sound -
  exact (expression_reads nested.readers sound).mono fun _ _ made => ⟨made.sound, made.onward⟩

theorem carries_foreach_targets (nested : Lockstep E depth g) :
    Carries (Firm depth) (Parser.foreachTargets g) t := by
  refine carries_of_reads ?_
  rintro c rfl sound -
  exact (foreach_targets_reads nested.readers sound).mono fun _ _ holds =>
    ⟨holds.1.sound, holds.1.onward⟩

theorem foreach_statement_meets (nested : Lockstep E depth g) (twin : Twin E s t)
    (word : s.token.kind = .keyword .foreach_) :
    Meets E (Parser.foreachStatement g) (Parser.foreachStatement g) s t
      (Closes E (Frayed E (Hale depth t)) Any) := by
  have word' : t.token.kind = .keyword .foreach_ := twin.like.kind ▸ word
  have mark {kind : TokenKind} {expected : String} (other : kind ≠ .semicolon) :
      Steady E (discard (Parser.expect kind expected)) Any := (expect_steady other).discard
  refine Meets.weaken (fun hale => hale.firm word') ?_
  refine .advance twin (by rw [word]; nofun) fun _ twin => ?_
  refine (mark (by nofun) _ _ twin).onward (carries_mark rfl) fun _ s _ t twin _ => ?_
  refine (expression_steady nested _ _ twin).onward (carries_expression nested) ?_
  intro subject s subject' t twin _
  refine (mark (by nofun) _ _ twin).onward (carries_mark rfl) fun _ s _ t twin _ => ?_
  refine (foreach_targets_steady nested _ _ twin).onward (carries_foreach_targets nested) ?_
  rintro ⟨byRef, targets⟩ s ⟨byRef', targets'⟩ t twin -
  refine (mark (by nofun) _ _ twin).onward (carries_mark rfl) fun _ s _ t twin _ => ?_
  refine .check twin (fun _ => ?_) fun _ => ?_
  · refine (body_free nested s t twin).shut (fun _ s ends => starved_close ends) ?_
    exact fun inner s inner' t twin _ => (close_meets twin).closes
  · exact (body_meets nested twin).fringe (fun _ => finish_builds.quiet) fun _ =>
      finish_builds.quiet

theorem label_test_steady (nested : Lockstep E depth g) : Steady E (Parser.labelTest g) Any := by
  intro s t twin
  refine .current ?_
  rw [← twin.like.kind]
  refine .ite .rfl (fun kind => ?_) fun _ => .ite .rfl (fun kind => ?_) fun _ => .unexpected twin
  · refine .skip twin (by rw [kind]; nofun) fun twin => ?_
    exact (expression_steady nested).then twin fun test s test' t twin => .pure ⟨twin, trivial⟩
  · exact .skip twin (by rw [kind]; nofun) fun twin => .pure ⟨twin, trivial⟩

theorem label_mark_meets (twin : Twin E s t) :
    Meets E Parser.labelMark Parser.labelMark s t (Both (Near E) Any) := by
  refine .current ?_
  rw [← twin.like.kind]
  exact .ite .rfl (fun _ => skip_level twin) fun _ => .unexpected twin

theorem ends_label_like {a b : Token} (like : a.Like b) :
    Parser.endsLabel a = Parser.endsLabel b := by
  simp only [Parser.endsLabel, like.kind]

theorem switch_label_free (nested : Lockstep E depth g) : Free E (Parser.switchLabel g) := by
  intro s t twin
  refine .current <| (label_test_steady nested).then twin ?_
  rintro ⟨isDefault, test⟩ s ⟨isDefault', test'⟩ t twin
  have mark : Meets E Parser.labelMark Parser.labelMark s t (Closes E Freely Any) :=
    (label_mark_meets twin).closes
  refine mark.fall ?_ ?_
  · intro _ s ends
    refine (Idle.repeatFrom (fun items s ends => ?_) ends).bind fun _ s ends =>
      finish_builds.quiet.idle ends
    exact idle_list_step ends
  · intro _ s _ t twin _
    refine (statements_free nested (fun a b => ends_label_like) s t twin).last ?_ ?_
    · exact fun _ => finish_builds.quiet
    · exact fun _ => finish_builds.quiet

theorem starved_switch_label (ends : s.token.kind = .eof) : Starved (Parser.switchLabel g) s := by
  refine .current <| Starved.bind (.current ?_)
  rw [ends]
  exact starved_unexpected ends

theorem switch_opening_steady : Steady E Parser.switchOpening Same := by
  intro s t twin
  refine (eat_steady (by nofun)).same twin fun isColon s t twin => ?_
  refine .ite .rfl (fun _ => .pure ⟨twin, rfl⟩) fun _ => ?_
  exact .mark twin (by nofun) fun s t twin => .pure ⟨twin, rfl⟩

theorem switch_statement_meets (nested : Lockstep E depth g) (twin : Twin E s t)
    (other : s.token.kind ≠ .semicolon) :
    Meets E (Parser.switchStatement g) (Parser.switchStatement g) s t (Both (Near E) Any) := by
  refine .advance twin other fun _ twin => ?_
  refine (condition_steady nested).then twin fun subject s subject' t twin => ?_
  refine switch_opening_steady.same twin fun alternate s t twin => ?_
  have closing : (if alternate then .keyword .endSwitch_ else .rightBrace : TokenKind) ≠ .eof ∧
      (if alternate then .keyword .endSwitch_ else .rightBrace : TokenKind) ≠ .semicolon := by
    cases alternate <;> exact ⟨by nofun, by nofun⟩
  have starved (labels : List Nat) (s : ParserState) (ends : s.token.kind = .eof) : Starved (do
      if ← Parser.check (if alternate then .keyword .endSwitch_ else .rightBrace) then
        return .done labels
      return .yield (labels ++ [← Parser.switchLabel g]) : Parser (ForInStep (List Nat))) s :=
    Starved.step (check_ends ends closing.1) (starved_switch_label ends).bind
  have empty : Meets E (discard (Parser.eat .semicolon)) (discard (Parser.eat .semicolon)) s t
      (Closes E Freely Any) := (eat_meets twin).dropped.closes
  refine empty.shut ?_ ?_
  · exact fun _ s ends => (Starved.repeatFrom starved ends).bind
  intro _ s _ t twin _
  refine Meets.bind (R := fun _ s _ _ => s.token.kind ≠ .semicolon)
    (.falter (R := Any) twin trivial ?_ starved) ?_
  · intro labels labels' s t twin _
    refine .check twin (fun kind => ?_) fun _ => ?_
    · exact .pure (.inr ⟨twin, fun no => closing.2 (kind.symm.trans no)⟩)
    · refine (switch_label_free nested s t twin).sequel ?_ ?_
      · intro label s label' t _ holds
        by_cases ends : s.token.kind = .eof
        · exact .pure (.inl ⟨ends, _, rfl⟩)
        · obtain ⟨near, -⟩ := holds.resolve_left fun no => ends no.1
          exact .pure (.inr ⟨⟨near, ends⟩, trivial⟩)
      · exact fun label s e t _ holds => .inl ⟨(holds.resolve_right id).1, _, rfl⟩
  · intro labels s labels' t twin other
    refine .skip twin other fun twin => .ite .rfl (fun _ => push_statement_meets twin) fun _ => ?_
    exact (finish_meets twin).level

theorem caught_types_steady : Steady E Parser.caughtTypes Any := by
  intro s t twin
  refine .loop (R := Any) twin trivial fun types types' s t twin _ => ?_
  refine class_name_steady.then twin fun type s type' t twin => ?_
  refine eat_operator_steady.same twin fun more s t twin => ?_
  exact .ite .rfl (fun _ => .pure ⟨twin, trivial⟩) fun _ => .pure ⟨twin, trivial⟩

theorem caught_variable_steady : Steady E Parser.caughtVariable Any := by
  intro s t twin
  refine .current ?_
  rw [← twin.like.kind]
  refine .ite .rfl (fun kind => ?_) fun _ => .pure ⟨twin, trivial⟩
  exact .skip twin (by rw [kind]; nofun) fun twin => .pure ⟨twin, trivial⟩

theorem catch_clause_meets (nested : Lockstep E depth g) (twin : Twin E s t)
    (other : s.token.kind ≠ .semicolon) :
    Meets E (Parser.catchClause g) (Parser.catchClause g) s t (Steadily E Any) := by
  refine .advance twin other fun _ twin => .mark twin (by nofun) fun s t twin => ?_
  refine caught_types_steady.then twin fun types s types' t twin => ?_
  refine caught_variable_steady.then twin fun bound s bound' t twin => ?_
  refine .mark twin (by nofun) fun s t twin => ?_
  exact (block_steady nested).then twin fun inner s inner' t twin => finish_meets twin

theorem finally_clause_meets (nested : Lockstep E depth g) (twin : Twin E s t)
    (other : s.token.kind ≠ .semicolon) :
    Meets E (Parser.finallyClause g) (Parser.finallyClause g) s t (Steadily E Any) := by
  refine .advance twin other fun _ twin => ?_
  exact (block_steady nested).then twin fun inner s inner' t twin => finish_meets twin

def Clauses (a : List Nat) (_ : ParserState) (b : List Nat) (_ : ParserState) : Prop :=
  a = [] ↔ b = []

theorem try_statement_meets (nested : Lockstep E depth g) (twin : Twin E s t)
    (other : s.token.kind ≠ .semicolon) :
    Meets E (Parser.tryStatement g) (Parser.tryStatement g) s t (Steadily E Any) := by
  refine .advance twin other fun _ twin => ?_
  refine (block_steady nested).then twin fun inner s inner' t twin => ?_
  refine Meets.bind (R := Clauses) (.loop (R := Clauses) twin .rfl ?_) ?_
  · intro clauses clauses' s t twin same
    refine .check twin (fun word => ?_) fun _ => .pure ⟨twin, same⟩
    refine (catch_clause_meets nested twin (by rw [word]; nofun)).bind ?_
    exact fun clause s clause' t twin _ => .pure ⟨twin, by simp [Clauses]⟩
  intro clauses s clauses' t twin same
  refine .test ?_
  rw [← twin.like.kind]
  refine Meets.bind (R := Clauses) (.onlyIf twin (fun word => ?_) fun _ => .rfl) ?_
  · have word := of_decide_eq_true word
    refine (finally_clause_meets nested twin (by rw [word]; nofun)).mono ?_
    rintro last s' ⟨_ | last', t'⟩ holds
    · exact holds
    · exact ⟨holds.1, by simp [Clauses]⟩
  intro last s last' t twin same'
  refine .ite ?_ (fun _ => .unexpected twin) fun _ => finish_meets twin
  simp only [List.isEmpty_iff, List.append_eq_nil_iff]
  exact and_congr same same'

theorem jump_meets (nested : Lockstep E depth g) {kind : NodeKind} (twin : Twin E s t)
    (other : s.token.kind ≠ .semicolon) :
    Meets E (Parser.jump g kind) (Parser.jump g kind) s t (Both (Near E) Any) := by
  refine .advance twin other fun _ twin => .current ?_
  rw [← twin.like.kind]
  refine (only_if_steady (expression_steady nested)).then twin fun value s value' t twin => ?_
  exact push_statement_meets twin

theorem list_statement_meets (nested : Lockstep E depth g) {kind : NodeKind} (twin : Twin E s t)
    (other : s.token.kind ≠ .semicolon) :
    Meets E (Parser.listStatement g kind) (Parser.listStatement g kind) s t
      (Both (Near E) Any) := by
  refine .advance twin other fun _ twin => ?_
  exact (expressions_steady nested).then twin fun ids s ids' t twin => push_statement_meets twin

theorem throw_statement_meets (nested : Lockstep E depth g) (twin : Twin E s t)
    (other : s.token.kind ≠ .semicolon) :
    Meets E (Parser.throwStatement g) (Parser.throwStatement g) s t (Both (Near E) Any) := by
  refine .advance twin other fun _ twin => ?_
  exact (expression_steady nested).then twin fun value s value' t twin => push_statement_meets twin

theorem unset_statement_meets (nested : Lockstep E depth g) (twin : Twin E s t)
    (other : s.token.kind ≠ .semicolon) :
    Meets E (Parser.unsetStatement g) (Parser.unsetStatement g) s t (Both (Near E) Any) := by
  refine .advance twin other fun _ twin => ?_
  exact (call_operands_steady nested).then twin fun ids s ids' t twin => push_statement_meets twin

theorem static_variable_steady (nested : Lockstep E depth g) :
    Steady E (Parser.staticVariable g) Any := by
  intro s t twin
  refine (expect_steady (by nofun)).then twin fun token s token' t twin => ?_
  refine (push_builds.quiet.meets push_builds.quiet twin).bind fun target s target' t twin _ => ?_
  refine eat_operator_steady.same twin fun hasValue s t twin => ?_
  refine .ite .rfl (fun _ => ?_) fun _ => .pure ⟨twin, trivial⟩
  refine (expression_steady nested).then twin fun value s value' t twin => ?_
  refine (node_at_quiet.meets node_at_quiet twin).bind fun node s node' t twin _ => ?_
  exact push_builds.quiet.meets push_builds.quiet twin

theorem static_variables_meets (nested : Lockstep E depth g) (twin : Twin E s t)
    (other : s.token.kind ≠ .semicolon) :
    Meets E (Parser.staticVariables g) (Parser.staticVariables g) s t (Both (Near E) Any) := by
  refine .advance twin other fun _ twin => ?_
  refine (comma_separated_steady (static_variable_steady nested)).then twin ?_
  exact fun ids s ids' t twin => push_statement_meets twin

theorem expression_statement_meets (nested : Lockstep E depth g) (twin : Twin E s t) :
    Meets E (Parser.expressionStatement g) (Parser.expressionStatement g) s t
      (Both (Near E) Any) := by
  refine .current ?_
  exact (expression_steady nested).then twin fun value s value' t twin => push_statement_meets twin

theorem names_function_run : Parser.namesFunction s =
    some (.ok (decide ((s.stream.peek 1).kind = .identifier) ||
      (s.stream.peek 1).isOperator "&" && decide ((s.stream.peek 2).kind = .identifier)), s) := by
  change (if (s.stream.peek 1).kind = .identifier then _ else _ : Parser Bool) s = _
  split
  next named => rw [decide_eq_true named]; rfl
  next other => rw [decide_eq_false other]; rfl

/-- Both texts tell alike whether a function has a name. -/
theorem names_function_alike (twin : Twin E s t) (other : s.token.kind ≠ .semicolon) :
    ∃ named, Parser.namesFunction s = some (.ok named, s) ∧
      Parser.namesFunction t = some (.ok named, t) := by
  have ahead := twin.ahead other
  refine ⟨_, names_function_run, ?_⟩
  rw [names_function_run, ← ahead.kind, ← ahead.is_operator]
  cases byRef : (s.stream.peek 1).isOperator "&" with
  | false => simp only [Bool.false_and]
  | true =>
    have other' : (s.stream.peek 1).kind ≠ .semicolon := by
      intro no
      rw [Token.isOperator, no] at byRef
      cases byRef
    rw [← (twin.ahead_two other other').kind]

theorem function_statement_meets (nested : Lockstep E depth g) (twin : Twin E s t)
    (other : s.token.kind ≠ .semicolon) :
    Meets E
      (do if ← Parser.namesFunction then Parser.functionDeclaration g
          else Parser.expressionStatement g)
      (do if ← Parser.namesFunction then Parser.functionDeclaration g
          else Parser.expressionStatement g) s t (Both (Near E) Any) := by
  obtain ⟨named, own, whole⟩ := names_function_alike twin other
  intro out run
  rw [run_bind, whole] at run
  rw [run_bind, own]
  cases named with
  | true => exact (function_declaration_meets nested twin other).level out run
  | false => exact expression_statement_meets nested twin out run

theorem keyword_statement_meets (nested : Lockstep E depth g) {word : Keyword} (twin : Twin E s t)
    (kind : s.token.kind = .keyword word) :
    Meets E (Parser.keywordStatement g word) (Parser.keywordStatement g word) s t
      (Closes E (Frayed E (Hale depth t)) Any) := by
  have other : s.token.kind ≠ .semicolon := by rw [kind]; nofun
  unfold Parser.keywordStatement
  split
  · exact if_statement_meets nested twin kind
  · exact while_statement_meets nested twin kind
  · exact (do_while_statement_meets nested twin other).closes
  · exact for_statement_meets nested twin other
  · exact foreach_statement_meets nested twin kind
  · exact (switch_statement_meets nested twin other).closes
  · exact (jump_meets nested twin other).closes
  · exact (jump_meets nested twin other).closes
  · exact (jump_meets nested twin other).closes
  · exact (list_statement_meets nested twin other).closes
  · exact (try_statement_meets nested twin other).level.closes
  · exact (throw_statement_meets nested twin other).closes
  · exact (list_statement_meets nested twin other).closes
  · exact (unset_statement_meets nested twin other).closes
  · exact (constant_declaration_meets nested twin other).closes
  · refine .ahead <| .ite (by rw [(twin.ahead other).kind]) (fun _ => ?_) fun _ => ?_
    · exact (static_variables_meets nested twin other).closes
    · exact (expression_statement_meets nested twin).closes
  · exact (function_statement_meets nested twin other).closes
  · exact (class_declaration_steady nested s t twin).level.closes
  · exact (class_declaration_steady nested s t twin).level.closes
  · exact (class_declaration_steady nested s t twin).level.closes
  · exact (interface_declaration_meets nested twin other).level.closes
  · exact (trait_declaration_meets nested twin other).level.closes
  · exact (expression_statement_meets nested twin).closes

theorem statement_meets (nested : Lockstep E depth g) (twin : Twin E s t) :
    Meets E (Parser.statement g) (Parser.statement g) s t
      (Closes E (Frayed E (Hale depth t)) Any) := by
  have some {p : Parser Nat} (meets : Meets E p p s t (Closes E (Frayed E (Hale depth t)) Any)) :
      Meets E (some <$> p) (some <$> p) s t (Closes E (Frayed E (Hale depth t)) Any) := by
    rw [← bind_pure_comp]
    exact meets.fringe (fun _ => .pure _) fun _ => .pure _
  refine .current ?_
  rw [← twin.like.kind]
  cases kind : s.token.kind with
  | semicolon => exact .take twin fun near => .pure (.inr ⟨near, trivial⟩)
  | closeTag => exact .take twin fun near => .pure (.inr ⟨near, trivial⟩)
  | leftBrace => exact some (block_steady nested s t twin).level.closes
  | keyword word => exact some (keyword_statement_meets nested twin kind)
  | _ => exact some (expression_statement_meets nested twin).closes

end PhpAnalyser
