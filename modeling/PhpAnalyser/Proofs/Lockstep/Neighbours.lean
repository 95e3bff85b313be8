import Mathlib.Data.List.Chain
import Mathlib.Data.List.Forall2
import PhpAnalyser.Proofs.Lockstep.Path
/-!
Statements that follow one another in a file are read there as each of them is read as a file of its
own, so the errors that are found in each of them alone are found in the file.
-/
namespace PhpAnalyser

variable {E : Excerpt} {s s' t t' z : ParserState} {noted : List ParseError}

/-- No token is left to the first parser, and the second has an error of the stretch if the first
has one. Either a conditional goes on behind the stretch, or the first parser went on behind its
semicolon. -/
def Diverged (E : Excerpt) (s t : ParserState) : Prop :=
  (E.Torn ∨ E.Slipped s.errors) ∧ (s.errors ≠ [] → E.Told t.errors)

theorem Frayed.diverged {hale : Prop} (frayed : Frayed E hale s t) (holds : hale) : Diverged E s t :=
  ⟨.inl (frayed holds).1, (frayed holds).2⟩

theorem lead_step_meets {fuel fuel' : Nat} {items items' : List Nat} (twin : Twin E s t)
    (hale : Hale 0 t) :
    Meets E (leadStep fuel items) (leadStep fuel' items') s t (Closes E (Diverged E) Going) := by
  refine list_step_meets twin rfl rfl (lead_meets twin) ?_ ?_ ?_
  · rintro more s' more' t' (⟨ends, frayed⟩ | both)
    · exact .inl ⟨ends, frayed.diverged hale⟩
    · exact .inr ⟨both.1, ⟨_, rfl⟩, _, rfl⟩
  · rintro more s' e t' out (⟨ends, frayed⟩ | no) run
    · refine .inl ⟨ends, .inl (frayed hale).1, fun some => ?_⟩
      exact E.told_mono ((frayed hale).2 some) (resume_grows run)
    · exact no.elim
  · rintro r s' out (⟨ends, slipped, told⟩ | both)
    · exact .inl ⟨ends, .inr slipped, fun _ => told⟩
    · exact .inr both

/-- A step through the text of its own, and what the other parser does meanwhile. -/
theorem Step.meets {fuel : Nat} {items : List Nat} {out : Outcome (ForInStep (List Nat))}
    (step : Step s s') (twin : Twin E s t) (between : Between fuel t)
    (run : leadStep fuel items t = some out) :
    ∃ ids, Closes E (Diverged E) Going (.yield ids) s' out := by
  obtain ⟨fuel', items', ids, -, own⟩ := step
  have answers : Answers E _ (leadStep fuel' items' s) out :=
    lead_step_meets twin ⟨_, rfl, between.sound⟩ out run
  rw [own] at answers
  exact ⟨ids, answers⟩

/-- What the other parser does while the first takes a step: it gives up the file, it parts from the
first, or it takes a step too. -/
theorem Step.alongside (step : Step s s') (near : Near E s t) (path : Path t z)
    (ends : Ends z noted) :
    (∃ e t', Dead z e t' ∧ t'.errors ++ [e] = noted ∧ s'.token.kind = .eof ∧ Diverged E s' t') ∨
      ∃ t', Path t t' ∧ Path t' z ∧ ((s'.token.kind = .eof ∧ Diverged E s' t') ∨ Near E s' t') := by
  have more : s.token.kind ≠ .eof := by
    obtain ⟨_, _, _, between, _⟩ := step
    exact between.more
  induction path using Relation.ReflTransGen.head_induction_on with
  | refl =>
    have twin : Twin E s z := ⟨near, more⟩
    rcases ends with ⟨ends, -⟩ | ⟨e, t', dead, -, same⟩
    · exact absurd ends twin.more'
    · obtain ⟨fuel, items, between, run⟩ := id dead
      obtain ⟨ids, ⟨ends, diverged⟩ | no⟩ := step.meets twin between run
      · exact .inl ⟨e, t', dead, same, ends, diverged⟩
      · exact no.elim
  | head move path ih =>
    rcases move with other | silent
    · obtain ⟨fuel, items, items', between, run⟩ := id other
      obtain ⟨ids, diverged | ⟨near, -⟩⟩ := step.meets ⟨near, more⟩ between run
      · exact .inr ⟨_, .single (.inl other), path, .inl diverged⟩
      · exact .inr ⟨_, .single (.inl other), path, .inr near⟩
    · rcases ih (near.still (.refl s) silent.still) with dead | ⟨t', before, behind, holds⟩
      · exact .inl dead
      · exact .inr ⟨t', before.head (.inr silent), behind, holds⟩

/-- Where no token is left nothing is read. -/
theorem Path.at_end (path : Path s s') (ends : s.token.kind = .eof) :
    s'.token.kind = .eof ∧ s'.errors = s.errors := by
  induction path with
  | refl => exact ⟨ends, rfl⟩
  | tail _ move ih =>
    rcases move with ⟨_, _, _, between, _⟩ | silent
    · exact absurd ih.1 between.more
    · exact ⟨silent.still.token ▸ ih.1, silent.still.errors.trans ih.2⟩

theorem Excerpt.slipped_mono {later : List ParseError} (slipped : E.Slipped noted)
    (before : noted <+: later) : E.Slipped later := by
  obtain ⟨e, member, rest⟩ := slipped
  exact ⟨e, before.subset member, rest⟩

/-- The other parser goes through the whole stretch. -/
theorem Path.alongside (own : Path s s') (near : Near E s t) (intact : ¬E.Torn)
    (fine : ¬E.Slipped s'.errors) (path : Path t z) (ends : Ends z noted) :
    ∃ t', Near E s' t' ∧ Path t t' ∧ Path t' z := by
  induction own using Relation.ReflTransGen.head_induction_on generalizing t with
  | refl => exact ⟨t, near, .refl, path⟩
  | head move own ih =>
    rcases move with step | silent
    · have later := (Path.leads own step.further.1).errors
      have whole {s₁ t₁ : ParserState} (before : s₁.errors <+: s'.errors) : ¬Diverged E s₁ t₁ :=
        fun diverged => diverged.1.elim intact fun slipped => fine (E.slipped_mono slipped before)
      rcases step.alongside near path ends with ⟨_, _, -, -, -, diverged⟩ | ⟨t₁, before, path, next⟩
      · exact absurd diverged (whole later)
      · rcases next with ⟨-, diverged⟩ | near
        · exact absurd diverged (whole later)
        · obtain ⟨t', near, before', behind⟩ := ih near path
          exact ⟨t', near, before.trans before', behind⟩
    · exact ih (near.still silent.still (.refl t)) path

theorem Dead.errors {e : ParseError} (dead : Dead t e t') : t.errors <+: t'.errors := by
  obtain ⟨fuel, items, between, run⟩ := dead
  have reads : Reads t (leadStep fuel items) t fun _ => Further t := lead_step_reads between
  unfold Reads at reads
  rw [run] at reads
  exact reads.onward.errors

theorem Ends.errors (ends : Ends z noted) : z.errors <+: noted := by
  rcases ends with ⟨-, rfl⟩ | ⟨e, t', dead, -, rfl⟩
  · exact List.prefix_rfl
  · exact dead.errors.trans (List.prefix_append ..)

/-- If the first parser finds an error, there is one of the stretch in the whole file. -/
theorem Path.told (own : Path s s') (some : s'.errors ≠ []) (near : Near E s t)
    (sound : Sound ⟨0, [], none⟩ t) (path : Path t z) (ends : Ends z noted) : E.Told noted := by
  induction own using Relation.ReflTransGen.head_induction_on generalizing t with
  | refl => exact E.told_mono (near.told some) ((path.leads sound).errors.trans ends.errors)
  | head move own ih =>
    rcases move with step | silent
    · rcases step.alongside near path ends with
        ⟨e, t₁, -, rfl, ended, diverged⟩ | ⟨t₁, before, path, next⟩
      · rw [(Path.at_end own ended).2] at some
        exact E.told_mono (diverged.2 some) (List.prefix_append ..)
      · have sound := (before.leads sound).sound
        rcases next with ⟨ended, diverged⟩ | near
        · rw [(Path.at_end own ended).2] at some
          exact E.told_mono (diverged.2 some) ((path.leads sound).errors.trans ends.errors)
        · exact ih near sound path
    · exact ih (near.still silent.still (.refl t)) sound path

def IsStatement (x : String) : Prop :=
  (scanOpen x).getLast?.any (·.kind = .semicolon) ∧
    ∀ t ∈ (scanOpen x).dropLast, t.kind ≠ .semicolon

instance (x : String) : Decidable (IsStatement x) := inferInstanceAs (Decidable (_ ∧ _))

/-- The tokens of a file are those of some texts, one behind the other. -/
def Joins (texts : List String) (whole : String) : Prop :=
  List.Forall₂ Token.Like (texts.flatMap scanOpen) (scanOpen whole)

theorem scan_open (x : String) :
    ∃ last, scan x = scanOpen x ++ [last] ∧ last.kind = .eof ∧
      ∀ t ∈ scanOpen x, t.kind ≠ .eof := by
  obtain ⟨inner, last, same, atEnd, -, inside⟩ := scan_ends x
  have isOpen : scanOpen x = inner := by
    rw [scanOpen, same, List.takeWhile_append_of_pos fun t member => ?_]
    · simp [atEnd]
    · exact decide_eq_true (inside t member).1
  rw [isOpen]
  exact ⟨last, same, atEnd, fun t member => (inside t member).1⟩

theorem scan_at {x : String} {q : Nat} {a : Token} (found : (scan x).toArray[q]? = some a) :
    (q < (scanOpen x).length ∧ (scanOpen x)[q]? = some a ∧ a.kind ≠ .eof) ∨
      (q = (scanOpen x).length ∧ a.kind = .eof) := by
  obtain ⟨last, same, ends, inner⟩ := scan_open x
  rw [List.getElem?_toArray, same] at found
  by_cases low : q < (scanOpen x).length
  · rw [List.getElem?_append_left low] at found
    exact .inl ⟨low, found, inner a (List.mem_of_getElem? found)⟩
  · rw [List.getElem?_append_right (Nat.le_of_not_lt low), List.getElem?_singleton] at found
    split at found
    next zero =>
      cases found
      exact .inr ⟨by omega, ends⟩
    next => cases found

theorem scan_open_at {x : String} {q : Nat} (low : q < (scanOpen x).length) :
    (scan x).toArray[q]? = (scanOpen x)[q]? := by
  obtain ⟨last, same, -⟩ := scan_open x
  rw [List.getElem?_toArray, same, List.getElem?_append_left low]

theorem scan_length (x : String) : (scan x).length = (scanOpen x).length + 1 := by
  obtain ⟨last, same, -⟩ := scan_open x
  simp [same]

theorem IsStatement.semicolon {x : String} (statement : IsStatement x) {q : Nat} {a : Token}
    (here : (scanOpen x)[q]? = some a) : a.kind = .semicolon ↔ q + 1 = (scanOpen x).length := by
  obtain ⟨low, rfl⟩ := List.getElem?_eq_some_iff.mp here
  by_cases last : q + 1 = (scanOpen x).length
  · refine iff_of_true ?_ last
    have ends := statement.1
    rw [List.getLast?_eq_getElem?, show (scanOpen x).length - 1 = q by omega, here] at ends
    simpa using ends
  · refine iff_of_false (statement.2 _ ?_) last
    have inner : q < (scanOpen x).dropLast.length := by
      rw [List.length_dropLast]
      omega
    exact List.mem_iff_getElem.mpr ⟨q, inner, List.getElem_dropLast inner⟩

def Excerpt.of {x whole : String} (statement : IsStatement x) {front mid back : List Token}
    (cut : scanOpen whole = front ++ mid ++ back)
    (like : List.Forall₂ Token.Like (scanOpen x) mid) : Excerpt where
  own := (scan x).toArray
  whole := (scan whole).toArray
  start := front.length
  length := (scanOpen x).length
  size := by simp [scan_length]
  inside := by
    rw [List.size_toArray, scan_length, cut, like.length_eq, List.length_append,
      List.length_append]
    omega
  alike q a b low own found := by
    have same := like.length_eq
    have inner : front.length + q < (scanOpen whole).length := by
      rw [cut, List.length_append, List.length_append]
      omega
    rw [scan_open_at low] at own
    rw [scan_open_at inner, cut, List.append_assoc, List.getElem?_append_right (by omega),
      List.getElem?_append_left (by omega), Nat.add_sub_cancel_left] at found
    obtain ⟨_, rfl⟩ := List.getElem?_eq_some_iff.mp own
    obtain ⟨_, rfl⟩ := List.getElem?_eq_some_iff.mp found
    exact like.get _ _
  more q a own := by
    rcases scan_at own with ⟨low, -, more⟩ | ⟨rfl, ends⟩
    · exact iff_of_true more low
    · exact iff_of_false (fun more => more ends) (Nat.lt_irrefl _)
  semicolon q a own := by
    rcases scan_at own with ⟨low, here, -⟩ | ⟨rfl, ends⟩
    · exact statement.semicolon here
    · exact iff_of_false (by simp [ends]) (by omega)

/-- A text on its own is parsed or has one error, behind which parsing goes on. -/
def Alone (x : String) : Prop :=
  (∃ tree, parse x 0 = .ok tree) ∨ ∃ e, parse x 0 = .error [e] ∧ e.fault.isRecoverable

def AtSemicolon (x : String) : Prop :=
  ∃ e, parse x 0 = .error [e] ∧ ∃ t ∈ scan x, t.kind = .semicolon ∧ e.span = t.span

def GoesOn (x y : String) : Prop :=
  (∃ t ∈ scan x, t.kind = .keyword .if_) ∧
    ∃ t, (scan y).head? = some t ∧ (t.kind = .keyword .else_ ∨ t.kind = .keyword .elseIf_)

/-- A text that is read alone is read along a path to its end, and its error is noted there. -/
theorem Alone.path {x : String} (alone : Alone x) :
    ∃ s, Path (.initial (.ofSource x)) s ∧ s.token.kind = .eof ∧
      if s.errors = [] then ∃ tree, parse x 0 = .ok tree
      else ∃ e, s.errors = [e] ∧ parse x 0 = .error [e] := by
  obtain ⟨s, errors, path, ⟨ends, rfl⟩ | ⟨e, s', -, fatal, rfl⟩, yields⟩ := parse_path x 0
  · refine ⟨s, path, ends, ?_⟩
    split at yields
    next none => rwa [if_pos none]
    next some =>
      rw [if_neg some]
      rcases alone with ⟨tree, same⟩ | ⟨e, same, -⟩
      · rw [yields] at same
        cases same
      · rw [yields, Except.error.injEq] at same
        exact ⟨e, same, same ▸ yields⟩
  · rw [if_neg (by simp)] at yields
    rcases alone with ⟨tree, same⟩ | ⟨e', same, recoverable⟩
    · rw [yields] at same
      cases same
    · rw [yields, Except.error.injEq] at same
      have last : e = e' := by simpa using congrArg List.getLast? same
      rw [last, recoverable] at fatal
      cases fatal

structure Halfway (whole : String) (z : ParserState) (place : Nat) (t : ParserState) : Prop where
  tokens : t.tokens = (scan whole).toArray
  sound : Sound ⟨0, [], none⟩ t
  place : t.place = place
  path : Path t z

section Through

variable {x whole : String} {front mid back : List Token} {statement : IsStatement x}
  {cut : scanOpen whole = front ++ mid ++ back}
  {like : List.Forall₂ Token.Like (scanOpen x) mid}

theorem Halfway.near (halfway : Halfway whole z front.length t) :
    Near (.of statement cut like) (.initial (.ofSource x)) t where
  own := tokens_initial x
  whole := halfway.tokens
  place := halfway.place
  depth := halfway.sound.depth.symm
  scope := fun _ no => nomatch no
  told := fun no => absurd rfl no

/-- A parser at the start of a text goes on to its end. -/
theorem Halfway.through (halfway : Halfway whole z front.length t) (ends : Ends z noted)
    (alone : Alone x) (fine : ¬AtSemicolon x) (intact : ¬(Excerpt.of statement cut like).Torn) :
    ∃ t', Halfway whole z (front ++ mid).length t' := by
  obtain ⟨s', path, ended, yields⟩ := alone.path
  have inside : ¬(Excerpt.of statement cut like).Slipped s'.errors := by
    rintro ⟨e, member, t, here, kind, span⟩
    rw [if_neg (List.ne_nil_of_mem member)] at yields
    obtain ⟨e', only, rejected⟩ := yields
    rw [only] at member
    obtain rfl := List.mem_singleton.mp member
    exact fine ⟨e, rejected, t, List.mem_toArray.mp here, kind, span⟩
  obtain ⟨t', near, before, behind⟩ := path.alongside halfway.near intact inside halfway.path ends
  have leads := before.leads halfway.sound
  refine ⟨t', leads.tokens.trans halfway.tokens, leads.sound, ?_, behind⟩
  rw [near.place, near.at_end ended, List.length_append, ← like.length_eq]
  rfl

/-- A parser at the start of a text that is rejected comes to an error in it. -/
theorem Halfway.told (halfway : Halfway whole z front.length t) (ends : Ends z noted)
    (alone : Alone x) (rejected : ∀ tree, parse x 0 ≠ .ok tree) :
    (Excerpt.of statement cut like).Told noted := by
  obtain ⟨s', path, -, yields⟩ := alone.path
  refine path.told (fun none => ?_) halfway.near halfway.sound halfway.path ends
  rw [if_pos none] at yields
  obtain ⟨tree, accepted⟩ := yields
  exact rejected tree accepted

end Through

theorem IsStatement.head {x : String} (statement : IsStatement x) :
    ∃ first rest, scanOpen x = first :: rest ∧ (scan x).head? = some first := by
  obtain ⟨ending, same, -⟩ := scan_open x
  have some : scanOpen x ≠ [] := by
    intro none
    have no := statement.1
    rw [none] at no
    cases no
  obtain ⟨first, rest, cut⟩ := List.exists_cons_of_ne_nil some
  exact ⟨first, rest, cut, by rw [same, cut]; rfl⟩

/-- Only a text that the next one goes on is torn from it. -/
theorem excerpt_intact {x y whole : String} {front mid back : List Token} {texts : List String}
    (statement : IsStatement x) (cut : scanOpen whole = front ++ mid ++ back)
    (like : List.Forall₂ Token.Like (scanOpen x) mid)
    (others : List.Forall₂ Token.Like ((y :: texts).flatMap scanOpen) back)
    (next : IsStatement y) (apart : ¬GoesOn x y) : ¬(Excerpt.of statement cut like).Torn := by
  rintro ⟨⟨a, member, conditional⟩, t, found, goes⟩
  have length := like.length_eq
  change (scan whole).toArray[front.length + (scanOpen x).length]? = some t at found
  obtain ⟨first, rest, shape, head⟩ := next.head
  rw [List.flatMap_cons, shape] at others
  cases others with | @cons _ b _ back alike _ =>
  have here : (scanOpen whole)[front.length + (scanOpen x).length]? = some b := by
    rw [cut, length, ← List.length_append, List.getElem?_append_right (Nat.le_refl _),
      Nat.sub_self]
    rfl
  rw [scan_open_at (List.getElem?_eq_some_iff.mp here).1, here] at found
  cases found
  refine apart ⟨⟨a, List.mem_toArray.mp member, conditional⟩, first, head, ?_⟩
  rw [alike.kind]
  exact goes

theorem forall₂_append {α β : Type} {R : α → β → Prop} {front back : List α} {whole : List β}
    (related : List.Forall₂ R (front ++ back) whole) :
    ∃ front' back', whole = front' ++ back' ∧ List.Forall₂ R front front' ∧
      List.Forall₂ R back back' := by
  refine ⟨whole.take front.length, whole.drop front.length, (List.take_append_drop ..).symm, ?_, ?_⟩
  · simpa using List.forall₂_take front.length related
  · simpa using List.forall₂_drop front.length related

def ErrorAmong (whole : String) (start length : Nat) (errors : List ParseError) : Prop :=
  ∃ e ∈ errors, ∃ q t, q < length ∧ (scan whole)[start + q]? = some t ∧ e.span = t.span

theorem Halfway.reports {whole x : String} {before behind : List String} {front rest : List Token}
    (halfway : Halfway whole z front.length t) (ends : Ends z noted)
    (cut : scanOpen whole = front ++ rest)
    (joins : List.Forall₂ Token.Like ((before ++ x :: behind).flatMap scanOpen) rest)
    (statements : ∀ y ∈ before ++ [x], IsStatement y ∧ Alone y)
    (fine : ∀ y ∈ before, ¬AtSemicolon y)
    (apart : (before ++ [x]).IsChain fun y z => ¬GoesOn y z)
    (rejected : ∀ tree, parse x 0 ≠ .ok tree) :
    ErrorAmong whole (front.length + (before.flatMap scanOpen).length) (scanOpen x).length noted := by
  induction before generalizing front rest t with
  | nil =>
    obtain ⟨statement, alone⟩ := statements x (by simp)
    rw [List.nil_append, List.flatMap_cons] at joins
    obtain ⟨mid, back, rfl, like, -⟩ := forall₂_append joins
    rw [← List.append_assoc] at cut
    have told : (Excerpt.of statement cut like).Told noted := halfway.told ends alone rejected
    obtain ⟨e, member, q, a, low, found, span⟩ := told
    exact ⟨e, member, q, a, low, by simpa [Excerpt.of] using found, span⟩
  | cons y before ih =>
    obtain ⟨statement, alone⟩ := statements y (by simp)
    rw [List.cons_append, List.flatMap_cons] at joins
    obtain ⟨mid, back, rfl, like, others⟩ := forall₂_append joins
    rw [← List.append_assoc] at cut
    have intact : ¬(Excerpt.of statement cut like).Torn := by
      cases before with
      | nil =>
        exact excerpt_intact statement cut like others (statements x (by simp)).1
          (List.isChain_cons_cons.mp apart).1
      | cons w before =>
        exact excerpt_intact statement cut like others (statements w (by simp)).1
          (List.isChain_cons_cons.mp apart).1
    obtain ⟨t₁, halfway⟩ := halfway.through ends alone (fine y List.mem_cons_self) intact
    have among := ih halfway cut others
      (fun w member => statements w (List.mem_cons_of_mem y member))
      (fun w member => fine w (List.mem_cons_of_mem y member)) apart.tail
    rw [List.length_append, ← like.length_eq] at among
    rwa [List.flatMap_cons, List.length_append, ← Nat.add_assoc]

/-- A text that is rejected on its own has an error where it stands in a file. Only two things in
front of it are excluded: an error that a text has at its semicolon, since parsing goes on behind
the next semicolon then, and a conditional that goes on in the next text. -/
theorem parse_reports_each {whole : String} {file : Nat} {before behind : List String}
    {x : String} (joins : Joins (before ++ x :: behind) whole)
    (statements : ∀ y ∈ before ++ [x], IsStatement y ∧ Alone y)
    (fine : ∀ y ∈ before, ¬AtSemicolon y)
    (apart : (before ++ [x]).IsChain fun y z => ¬GoesOn y z)
    (rejected : ∀ tree, parse x 0 ≠ .ok tree) :
    ∃ errors, parse whole file = .error errors ∧
      ErrorAmong whole (before.flatMap scanOpen).length (scanOpen x).length errors := by
  obtain ⟨z, errors, path, ends, yields⟩ := parse_path whole file
  have start : Halfway whole z ([] : List Token).length (.initial (.ofSource whole)) :=
    ⟨tokens_initial whole, sound_initial whole, rfl, path⟩
  have among := start.reports ends (List.nil_append _).symm joins statements fine apart rejected
  rw [List.length_nil, Nat.zero_add] at among
  obtain ⟨e, member, -⟩ := id among
  rw [if_neg (List.ne_nil_of_mem member)] at yields
  exact ⟨errors, yields, among⟩

theorem exists_tree {x : String} {file : Nat} (accepted : (parse x file).isOk = true) :
    ∃ tree, parse x file = .ok tree := by
  cases same : parse x file with
  | ok tree => exact ⟨tree, rfl⟩
  | error errors => simp [same, Except.isOk, Except.toBool] at accepted

instance (a b : Token) : Decidable (a.Like b) :=
  decidable_of_iff (a.kind = b.kind ∧ a.text = b.text ∧
    (a.kind = .leftBrace → a.trivia.isEmpty = b.trivia.isEmpty))
    ⟨fun ⟨kind, text, trivia⟩ => ⟨kind, text, trivia⟩, fun ⟨kind, text, trivia⟩ => ⟨kind, text, trivia⟩⟩

instance (texts : List String) (whole : String) : Decidable (Joins texts whole) :=
  inferInstanceAs (Decidable (List.Forall₂ ..))

theorem not_at_semicolon {x : String} {e : ParseError} (same : parse x 0 = .error [e])
    (apart : ∀ t ∈ scan x, t.kind = .semicolon → e.span ≠ t.span) : ¬AtSemicolon x := by
  rintro ⟨e', same', t, member, kind, span⟩
  rw [same] at same'
  cases same'
  exact apart t member kind span

theorem parse_reports_each_operands :
    ∃ errors, parse "<?php $a = ); $b = 1; $c = );" 0 = .error errors ∧
      ErrorAmong "<?php $a = ); $b = 1; $c = );" 8 4 errors := by
  let missing : ParseError :=
    ⟨.unexpectedToken ["expression"] ")", ⟨11, 12, ⟨1, 12⟩, ⟨1, 12⟩⟩⟩
  have first : parse "<?php $a = );" 0 = .error [missing] := by decide +kernel
  have second : ∃ tree, parse "<?php $b = 1;" 0 = .ok tree := exists_tree (by decide +kernel)
  have third : parse "<?php $c = );" 0 = .error [missing] := by decide +kernel
  have joins : Joins (["<?php $a = );", "<?php $b = 1;"] ++ "<?php $c = );" :: [])
      "<?php $a = ); $b = 1; $c = );" := by decide +kernel
  have start : (["<?php $a = );", "<?php $b = 1;"].flatMap scanOpen).length = 8 := by
    decide +kernel
  have length : (scanOpen "<?php $c = );").length = 4 := by decide +kernel
  rw [← start, ← length]
  refine parse_reports_each joins ?_ ?_ ?_ ?_
  · simp only [List.cons_append, List.nil_append, List.forall_mem_cons]
    refine ⟨⟨?_, .inr ⟨_, first, rfl⟩⟩, ⟨?_, .inl second⟩, ⟨?_, .inr ⟨_, third, rfl⟩⟩, nofun⟩ <;>
      decide +kernel
  · simp only [List.forall_mem_cons]
    refine ⟨not_at_semicolon first (by decide +kernel), ?_, nofun⟩
    rintro ⟨e, rejected, -⟩
    obtain ⟨tree, accepted⟩ := second
    rw [accepted] at rejected
    cases rejected
  · have plain : ¬∃ t ∈ scan "<?php $a = );", t.kind = .keyword .if_ := by decide +kernel
    have plain' : ¬∃ t ∈ scan "<?php $b = 1;", t.kind = .keyword .if_ := by decide +kernel
    simp only [List.cons_append, List.nil_append, List.isChain_cons_cons, List.IsChain.singleton,
      and_true]
    exact ⟨fun no => plain no.1, fun no => plain' no.1⟩
  · rw [third]
    nofun

/-- A branch that is no statement on its own is one behind a conditional. -/
theorem parse_joined_branch :
    Joins ["<?php if ($a) $b;", "<?php else $c;"] "<?php if ($a) $b; else $c;" ∧
      (∀ x ∈ ["<?php if ($a) $b;", "<?php else $c;"], IsStatement x ∧ Alone x) ∧
      (∀ tree, parse "<?php else $c;" 0 ≠ .ok tree) ∧
      ∃ tree, parse "<?php if ($a) $b; else $c;" 0 = .ok tree := by
  have second : parse "<?php else $c;" 0 =
      .error [⟨.unexpectedToken ["expression"] "else", ⟨6, 10, ⟨1, 7⟩, ⟨1, 10⟩⟩⟩] := by
    decide +kernel
  refine ⟨by decide +kernel, ?_, by simp [second], exists_tree (by decide +kernel)⟩
  simp only [List.forall_mem_cons]
  refine ⟨⟨by decide +kernel, .inl (exists_tree ?_)⟩, ⟨?_, .inr ⟨_, second, rfl⟩⟩, nofun⟩ <;>
    decide +kernel

end PhpAnalyser
