import PhpAnalyser.Proofs.Replay.Statement
/-!
The statements of a file, read again in another text: imports and namespaces, and all statements one
behind the other.
-/
namespace PhpAnalyser

variable {α β : Type} {W : Overlap} {k : Bool} {s : ParserState}

def Overlap.blank (steady : Bool) : Overlap := ⟨#[], #[], 0, 0, 0, #[], steady, nofun, nofun, nofun⟩

theorem tracks_nested {levels levels' : Nat} (le : levels ≤ levels') :
    Tracks W (Parser.nestedAt levels) (Parser.nestedAt levels') := by
  induction levels generalizing levels' with
  | zero => cases levels' <;> exact ⟨fun _ _ _ => .nested .stuck, fun _ _ => .nested .stuck⟩
  | succ levels ih =>
    obtain ⟨levels', rfl⟩ := Nat.exists_eq_add_of_lt le
    have inner : Tracks W (Parser.nestedAt levels) (Parser.nestedAt (levels + levels')) := ih (Nat.le_add_right _ _)
    exact ⟨fun _ power _ => .nested (.binary inner power), fun _ _ => .nested (.statement inner)⟩

theorem tracks_outermost : Tracks W Parser.outermost Parser.outermost := tracks_nested (Nat.le_refl _)

def Keyword.continues : Keyword → Bool
  | else_ | elseIf_ | catch_ | finally_ | endIf_ | endWhile_ | endFor_ | endForeach_ | endSwitch_ => true
  | _ => false

theorem TokenKind.continues_of_resumes {kind : TokenKind} (resumes : kind.resumes = true) :
    ∃ word : Keyword, kind = .keyword word ∧ word.continues = true := by
  cases kind with
  | keyword word => exact ⟨word, rfl, by cases word <;> first | rfl | cases resumes⟩
  | _ => cases resumes

def Refuses (word : Keyword) (p : Parser α) : Prop :=
  ∀ s : ParserState, s.token.kind = .keyword word → Succeeds p s fun _ _ => False

namespace Refuses

variable {word : Keyword} {p : Parser α}

theorem bind {f : α → Parser β} (refuses : Refuses word p) : Refuses word (p >>= f) :=
  fun s is => Succeeds.bind (refuses s is) fun _ _ no => no.elim

theorem map {h : α → β} (refuses : Refuses word p) : Refuses word (h <$> p) := by
  rw [← bind_pure_comp]
  exact refuses.bind

theorem nested (refuses : Refuses word p) : Refuses word (Parser.nested p) := by
  intro s is a s' run
  rw [nested_run] at run
  split at run
  · cases run
  · obtain ⟨⟨result, s₁⟩, read, same⟩ := Option.bind_eq_some_iff.mp run
    cases same
    exact refuses s.deeper is a s₁ read

theorem stuck : Refuses word (Parser.stuck : Parser α) := fun _ _ _ _ => nofun

section Words

variable (continues : word.continues = true)
include continues

theorem primary (g : Nested) : Refuses word (Parser.primary g) := by
  refine fun s is => Succeeds.current ?_
  rw [is]
  refine Succeeds.ahead ?_
  cases word <;> first | exact absurd continues (by decide) | exact Succeeds.unexpected

theorem binary (g : Nested) (least : Nat) : Refuses word (Parser.binary g least) := by
  refine .bind fun s is => Succeeds.current ?_
  have refuses : Refuses word (Parser.assignable g) := .bind (primary continues g)
  rw [is]
  cases word <;> first | exact absurd continues (by decide) | exact refuses s is

theorem expression (levels least : Nat) :
    Refuses word ((Parser.nestedAt levels).expression least) := by
  cases levels with
  | zero => exact .nested .stuck
  | succ levels => exact .nested (binary continues _ least)

theorem statement (levels : Nat) : Refuses word (Parser.nestedAt levels).statement := by
  cases levels with
  | zero => exact .nested .stuck
  | succ levels =>
    refine .nested fun s is => Succeeds.current ?_
    have refuses : Refuses word (Parser.expressionStatement (Parser.nestedAt levels)) := by
      refine fun s is => Succeeds.current ?_
      unfold Parser.expression
      exact bind (expression continues levels 0) s is
    rw [is]
    cases word <;> first | exact absurd continues (by decide) | exact refuses.map s is

end Words

end Refuses

namespace Replays

/-- The names in effect change in the same way. -/
theorem changeNames (loose : W.steady = false) (change : NameContext → NameContext) :
    Replays W k k .resting
      (modify fun s : ParserState => { s with names := change s.names } : Parser Unit)
      (modify fun s : ParserState => { s with names := change s.names } : Parser Unit) s := by
  intro u s' run clean
  cases run
  refine ⟨.still clean rfl rfl rfl rfl rfl ?_, .inl rfl, fun t beside _ _ => .inl ⟨_, rfl, ?_⟩⟩
  · rw [loose]
    exact nofun
  exact { beside with names := congrArg change beside.names }

theorem importAlias (name : String) :
    Replays W true true .inner (Parser.importAlias name) (Parser.importAlias name) s :=
  .bind (.eat rfl) fun _ _ _ => .ite (fun _ => .bind (.expect rfl) fun _ _ _ => .pure rfl)
    fun _ => .pure rfl

section Imports

variable {recorded : Bool} (loose : recorded = true → W.steady = false)
include loose

theorem importClause (start : Span) (name : String) :
    Replays W true true .inner (Parser.importClause start name recorded)
      (Parser.importClause start name recorded) s :=
  .bind (importAlias name) fun shortName _ _ => .ite (fun _ => .pure rfl) fun is =>
    .bind (changeNames (loose (by simpa using is)) (·.addImport shortName name)) fun _ _ _ =>
      .bind (n := .inner) (.finish rfl rfl) fun _ _ _ => .pure rfl

theorem importGroup (start : Span) (group : String) :
    Replays W true true .inner (Parser.importGroup start group recorded)
      (Parser.importGroup start group recorded) s := by
  refine .repeatFrom rfl fun ids s => .bind name ?_
  rintro ⟨written, _⟩ s -
  refine .bind (importClause loose start _) fun more _ _ => .bind (.eat rfl) fun _ _ _ => ?_
  have all := Renumber.shift_append W.front.size ids more
  refine .ite (fun _ => .pure (congrArg ForInStep.done all.symm)) fun _ => .check <| .ite (fun _ => ?_)
    fun _ => ?_
  · exact .pure (congrArg ForInStep.done all.symm)
  · exact .pure (congrArg ForInStep.yield all.symm)

theorem importItem :
    Replays W true true .inner (Parser.importItem recorded) (Parser.importItem recorded) s := by
  refine .current <| .bind name ?_
  rintro ⟨written, _⟩ s -
  refine .check <| .ahead (fun _ => .ite (fun is => ?_) fun _ => importClause loose _ _)
    fun seals u v => ?_
  · simp only [Bool.and_eq_true, decide_eq_true_eq] at is
    have leads := ParserState.Leads.of_kind is.1 rfl
    refine .skipping leads <| .skipping (.of_kind (peek_one leads.more ▸ is.2) rfl) ?_
    exact .bind (importGroup loose _ _) fun _ _ _ =>
      .bind (.discarded (.expect rfl)) fun _ _ _ => .pure rfl
  · simp only [TokenKind.ne_of_seal seals (o := .backslash) rfl, decide_false, Bool.false_and]
    exact importClause loose _ _

theorem importClauses (start : Span) :
    Replays W true true .closing
      (do
        let ids ← Parser.commaSeparated (Parser.importItem recorded)
        discard <| Parser.finishStatement start
        return ids.flatten)
      (do
        let ids ← Parser.commaSeparated (Parser.importItem recorded)
        discard <| Parser.finishStatement start
        return ids.flatten) s := by
  refine .bind (.commaSeparated fun _ => importItem loose) fun ids _ _ =>
    .then_ (.discarded .finishStatement) fun _ _ _ => .pure ?_
  simp only [Renumber.shift_list, List.map_flatten]
  rfl

end Imports

theorem importsTypes : Replays W true true .inner Parser.importsTypes Parser.importsTypes s := by
  refine .current <| .ite (fun is => .skipping ?_ (.pure rfl)) fun _ => .pure rfl
  simp only [Bool.or_eq_true, decide_eq_true_eq] at is
  rcases is with is | is <;> exact .of_word is

section Files

variable (loose : W.steady = false)
include loose

theorem imports (leads : s.Leads) : Replays W k true .closing Parser.imports Parser.imports s :=
  .advancing leads <| .bind importsTypes fun _ _ _ => importClauses (fun _ => loose) _

omit loose in
theorem packageName : Replays W true true .inner Parser.packageName Parser.packageName s := by
  refine .check <| .ite (fun _ => .bind name ?_) fun _ => .pure rfl
  rintro ⟨written, _⟩ s -
  exact .pure rfl

variable {item item' : Parser (List Nat)}

omit loose in
theorem namespaceBody (start : Span)
    (each : ∀ s, Replays W true true .inner item item' s) :
    Replays W true true .inner (Parser.namespaceBody item start) (Parser.namespaceBody item' start) s :=
  .bind (.eat rfl) fun _ _ _ => .ite (fun _ => .bind (.recovering each) fun _ _ _ =>
      .bind (.discarded (.expect rfl)) fun _ _ _ => .pure rfl)
    fun _ => .bind (.discarded .finishStatement) fun _ _ _ => .recovering each

theorem namespaceDeclaration (leads : s.Leads)
    (each : ∀ s, Replays W true true .inner item item' s) :
    Replays W k true .inner (Parser.namespaceDeclaration item)
      (Parser.namespaceDeclaration item') s ∧ Moves (Parser.namespaceDeclaration item) s :=
  advancing_moves leads <| .bind packageName fun package _ _ =>
    .bind (changeNames loose fun _ => .ofNamespace package) fun _ _ _ => .bind (namespaceBody _ each)
      fun _ _ _ => .finish rfl rfl

/-- What is read where no namespace starts. -/
theorem ordinary : Replays W k k .closing
    (if s.token.kind = .keyword .use_ then Parser.imports
      else do return (← Parser.outermost.statement).toList)
    (if s.token.kind = .keyword .use_ then Parser.imports
      else do return (← Parser.outermost.statement).toList) s :=
  .ite (fun is => .forget (imports loose (.of_word is))) fun _ =>
    .then_ (tracks_outermost.statement k s) fun id _ _ => .pure (by cases id <;> rfl)

theorem topStatement (fuel fuel' : Nat) (enough : W.Roomy → fuel ≤ fuel') :
    Replays W k k .inner (Parser.topStatement fuel) (Parser.topStatement fuel') s := by
  induction fuel generalizing k fuel' s with
  | zero => exact .stuck
  | succ fuel ih =>
    have going {fuel' : Nat} (enough : W.Roomy → fuel ≤ fuel') : Replays W k k .inner
        (Parser.topStatement (fuel + 1)) (Parser.topStatement (fuel' + 1)) s := by
      refine .current <| .ahead (fun _ => .ite (fun is => ?_) fun _ => (ordinary loose).inner) fun seals u v => ?_
      · simp only [Bool.and_eq_true, decide_eq_true_eq] at is
        exact .forget (.bind (namespaceDeclaration loose (.of_word is.1) fun _ => ih fuel' enough).1
          fun _ _ _ => .pure rfl)
      · simp only [TokenKind.ne_of_seal seals (o := .keyword .namespace_) rfl, decide_false,
          Bool.false_and]
        exact (ordinary loose).inner
    cases fuel' with
    | zero => exact (going fun _ => Nat.le_refl _).stuck_beside fun roomy => nomatch enough roomy
    | succ fuel' => exact going fun roomy => Nat.le_of_succ_le_succ (enough roomy)

/-- A statement that is no namespace seals what was read. -/
theorem topStatement_closing (fuel fuel' : Nat) (enough : W.Roomy → fuel ≤ fuel')
    (other : s.token.kind = .keyword .namespace_ → (s.stream.peek 1).kind = .backslash) :
    Replays W k k .closing (Parser.topStatement fuel) (Parser.topStatement fuel') s := by
  cases fuel with
  | zero => exact .stuck
  | succ fuel =>
    have going (fuel' : Nat) : Replays W k k .closing
        (Parser.topStatement (fuel + 1)) (Parser.topStatement (fuel' + 1)) s := by
      refine .current <| .ahead (fun _ => .ite (fun is => ?_) fun _ => ordinary loose) fun seals u v => ?_
      · simp only [Bool.and_eq_true, decide_eq_true_eq] at is
        exact absurd (other is.1) is.2
      · simp only [TokenKind.ne_of_seal seals (o := .keyword .namespace_) rfl, decide_false,
          Bool.false_and]
        exact ordinary loose
    cases fuel' with
    | zero => exact (going 0).stuck_beside fun roomy => nomatch enough roomy
    | succ fuel' => exact going fuel'

end Files

theorem topStatement_moves (fuel : Nat) : Moves (Parser.topStatement fuel) s := by
  cases fuel with
  | zero => exact fun _ _ => nofun
  | succ fuel =>
    refine Succeeds.current <| Succeeds.ahead <| .ite (fun is => ?_) fun _ =>
      (ordinary (W := .blank false) (k := true) rfl).moves
    simp only [Bool.and_eq_true, decide_eq_true_eq] at is
    have moves := (namespaceDeclaration (W := .blank false) (k := true) rfl (.of_word is.1) fun _ =>
      topStatement rfl fuel fuel fun _ => Nat.le_refl _).2
    exact .bind moves fun _ _ moved => .pure moved

end Replays

def fileItem : Parser (List Nat) := do Parser.topStatement (← Parser.remaining)

theorem fileItem_inner (loose : W.steady = false) : Replays W k k .inner fileItem fileItem s :=
  .remaining fun n n' enough => .topStatement loose n n' enough

theorem fileItem_closing (loose : W.steady = false)
    (other : s.token.kind = .keyword .namespace_ → (s.stream.peek 1).kind = .backslash) :
    Replays W k k .closing fileItem fileItem s :=
  .remaining fun n n' enough => .topStatement_closing loose n n' enough other

theorem Refuses.fileItem {word : Keyword} (continues : word.continues = true) :
    Refuses word fileItem := by
  intro s is
  change Succeeds (Parser.topStatement s.stream.remaining) s _
  cases s.stream.remaining with
  | zero => exact fun _ _ => nofun
  | succ fuel =>
    have refuses := Refuses.statement continues Parser.maxNesting s is
    refine Succeeds.current <| Succeeds.ahead ?_
    rw [is]
    have others : word ≠ .namespace_ ∧ word ≠ .use_ := by
      refine ⟨?_, ?_⟩ <;> rintro rfl <;> cases continues
    simp only [TokenKind.keyword.injEq, others.1, others.2, decide_false, Bool.false_and, if_false]
    exact Succeeds.bind refuses fun _ _ no => no.elim

abbrev FileRow := Row (Item (fun _ => false) fileItem)

theorem file_row : Succeeds (Parser.recovering (fun _ => false) fileItem) s fun ids s' =>
    s'.errors = [] → FileRow s ids s' ∧ s'.token.kind = .eof := by
  refine (Succeeds.recovering_row false fun s ids s' run clean => ⟨?_, ?_⟩).mono
    fun ids s' rows clean => ?_
  · exact (fileItem_inner (W := .blank false) (k := true) rfl).passage ids s' run clean
  · exact Replays.topStatement_moves _ ids s' run clean
  · exact ⟨(rows clean).1, (rows clean).2.resolve_right nofun⟩

theorem Row.clean {stop : Token → Bool} {item : Parser (List Nat)} {ids : List Nat}
    {s s' : ParserState} (row : Row (Item stop item) s ids s') (clean : s.errors = []) :
    s'.errors = [] := by
  induction row with
  | nil => exact clean
  | cons first _ ih => exact ih first.clean

theorem FileRow.passage {ids : List Nat} {s s' : ParserState} (row : FileRow s ids s')
    (clean : s.errors = []) : Passage false s s' := by
  induction row with
  | nil => exact .refl clean
  | cons first _ ih =>
    have read := (fileItem_inner (W := .blank false) (k := true) rfl).passage _ _ first.run first.clean
    exact read.trans (ih first.clean)

def ParserState.Marked (s : ParserState) : Prop :=
  ∀ t, s.tokens[s.place - 1]? = some t → t.kind = .semicolon ∨ t.kind = .closeTag

theorem marked_advance (mark : s.token.kind = .semicolon ∨ s.token.kind = .closeTag) :
    s.advance.Marked := by
  have more : s.token.kind ≠ .eof := by rcases mark with is | is <;> rw [is] <;> decide
  intro t found
  rw [tokens_advance, place_advance more, Nat.add_sub_cancel, s.token_at] at found
  exact Option.some.inj found ▸ mark

theorem finish_statement_marked {start : Span} :
    Succeeds (Parser.finishStatement start) s fun _ s' => s'.Marked :=
  Succeeds.finish_statement.mono fun _ _ ends => ends.2.1 ▸ marked_advance ends.1

theorem statement_marked {g : Nested} :
    Succeeds (Parser.statement g) s fun r s' => r = none → s'.Marked := by
  have some_ {p : Parser Nat} : Succeeds (some <$> p) s fun r s' => r = none → s'.Marked := by
    rw [← bind_pure_comp]
    exact .then_ fun _ _ => .pure nofun
  refine .current ?_
  split
  case h_1 kind => exact .skip <| .pure fun _ => marked_advance (.inl kind)
  case h_2 kind => exact .skip <| .pure fun _ => marked_advance (.inr kind)
  all_goals exact some_

/-- A statement of a file that leaves no node ends with a mark. -/
theorem file_item_marked : Succeeds fileItem s fun ids s' => ids = [] → s'.Marked := by
  change Succeeds (Parser.topStatement s.stream.remaining) s _
  cases s.stream.remaining with
  | zero => exact fun _ _ => nofun
  | succ fuel =>
    refine .current <| .ahead <| .ite (fun _ => .then_ fun _ _ => .pure nofun) fun _ => .ite (fun _ => ?_)
      fun _ => ?_
    · exact .advance <| .then_ fun _ _ => .then_ fun _ _ =>
        .bind (.discard finish_statement_marked) fun _ _ marked => .pure fun _ => marked
    · refine .bind (R := fun r s' => r = none → s'.Marked) (fun r s' run => ?_) fun r s' marked => ?_
      · change Parser.nested (Parser.statement _) s = _ at run
        rw [nested_run] at run
        split at run
        · cases run
        · obtain ⟨⟨result, s₁⟩, read, same⟩ := Option.bind_eq_some_iff.mp run
          cases same
          exact statement_marked r s₁ read
      · exact .pure fun none => marked (by cases r <;> first | rfl | cases none)

theorem FileRow.marked {ids : List Nat} {s s' : ParserState} (row : FileRow s ids s')
    (none : ids = []) : s' = s ∨ s'.Marked := by
  induction row with
  | nil => exact .inl rfl
  | cons first _ ih =>
    obtain ⟨own, later⟩ := List.append_eq_nil_iff.mp none
    rcases ih later with rfl | marked
    · exact .inr (file_item_marked _ _ first.run own)
    · exact .inr marked

theorem hull_stays {ids : List Nat} : Succeeds (Parser.hull ids) s fun _ s' => s' = s := by
  have look (i : Nat) (s : ParserState) : Succeeds (Parser.nodeAt i) s fun _ s' => s' = s := by
    intro n s' run
    rw [Replays.node_at_run] at run
    obtain ⟨_, _, same⟩ := Option.map_eq_some_iff.mp run
    cases same
    rfl
  unfold Parser.hull
  split
  · refine .bind (look _ s) ?_
    rintro m _ rfl
    refine .bind (look _ _) ?_
    rintro n _ rfl
    exact .pure rfl
  · exact .pure rfl

theorem hull_run {ids : List Nat} (made : ∀ i ∈ ids, i < s.nodes.size) :
    ∃ span, Parser.hull ids s = some (.ok span, s) := by
  have look {i : Nat} (member : i ∈ ids) : ∃ n, Parser.nodeAt i s = some (.ok n, s) := by
    rw [Replays.node_at_run, Array.getElem?_eq_getElem (made i member)]
    exact ⟨_, rfl⟩
  unfold Parser.hull
  rcases head : ids.head? with - | first
  · exact ⟨.origin, rfl⟩
  rcases tail : ids.getLast? with - | last
  · exact ⟨.origin, rfl⟩
  obtain ⟨m, read⟩ := look (List.mem_of_head? head)
  obtain ⟨n, read'⟩ := look (List.mem_of_getLast? tail)
  refine ⟨m.span.merge n.span, ?_⟩
  dsimp only
  rw [run_bind, read]
  dsimp only
  rw [run_bind, read']
  rfl

variable {stream : TokenStream} {file : Nat}

abbrev unit (file : Nat) (nodes : Array Node) (span : Span) (ids : List Nat) : SyntaxTree :=
  ⟨file, adopt nodes .compilationUnit span ids, nodes.size⟩

theorem unit_children {nodes : Array Node} {span : Span} {ids : List Nat} :
    (unit file nodes span ids).children nodes.size = ids := by
  simp only [SyntaxTree.children, SyntaxTree.node?, adopt_new, Option.elim]

/-- The tree of a file whose statements have been read. -/
theorem accepted_of_row {ids : List Nat} (row : FileRow (.initial stream) ids s)
    (ends : s.token.kind = .eof) (made : ∀ i ∈ ids, i < s.nodes.size) :
    ∃ span, parseTokens stream file = .ok (unit file s.nodes span ids) := by
  obtain ⟨span, hull⟩ := hull_run made
  refine ⟨span, ?_⟩
  have run : Parser.compilationUnit (.initial stream) = some (.ok s.nodes.size,
      { s with nodes := adopt s.nodes .compilationUnit span ids }) := by
    change (Parser.recovering (fun _ => false) fileItem >>= fun ids =>
      Parser.hull ids >>= fun span => Parser.push .compilationUnit span ids) _ = _
    rw [run_bind, row.recovering (.inl ends)]
    dsimp only
    rw [run_bind, hull]
    dsimp only
    rw [Replays.push_run, if_pos (by simpa using made)]
  have clean : s.errors = [] := row.clean rfl
  rw [parseTokens, parseTokens?, run]
  simp [clean]

/-- A file that is accepted is a row of statements. -/
theorem row_of_accepted {t : SyntaxTree} (accepted : parseTokens stream file = .ok t) :
    ∃ ids s span, FileRow (.initial stream) ids s ∧ s.token.kind = .eof ∧
      (∀ i ∈ ids, i < s.nodes.size) ∧
      t = unit file s.nodes span ids := by
  rw [parseTokens, parseTokens?] at accepted
  rcases run : Parser.compilationUnit (.initial stream) with - | ⟨e | root, s'⟩ <;>
    rw [run] at accepted
  · cases accepted
  · cases accepted
  have clean : s'.errors = [] := by
    by_contra noted
    have silent : s'.errors.isEmpty = false := by simpa using noted
    simp [silent] at accepted
  simp only [clean, List.isEmpty_nil, if_true, Option.getD_some] at accepted
  cases accepted
  obtain ⟨ids, s, read, rest⟩ := ok_of_bind (p := Parser.recovering (fun _ => false) fileItem)
    (f := fun ids => Parser.hull ids >>= fun span => Parser.push .compilationUnit span ids) run
  obtain ⟨span, s₁, hull, pushed⟩ := ok_of_bind rest
  obtain rfl := hull_stays span s₁ hull
  rw [Replays.push_run] at pushed
  split at pushed
  next made =>
    cases pushed
    obtain ⟨row, ends⟩ := file_row ids s₁ read clean
    exact ⟨ids, s₁, span, row, ends, by simpa using made, rfl⟩
  next => cases pushed

def Unmarked (ts : List Token) : Prop := ∀ t ∈ ts, t.kind ≠ .eof

section Texts

variable {xs : List Token}

theorem Unmarked.close (unmarked : Unmarked xs) :
    TokenStream.close xs = xs ++ [TokenStream.closing xs] := by
  rw [TokenStream.close, if_neg]
  intro closed
  obtain ⟨t, last, ends⟩ := (Option.any_eq_true ..).mp closed
  exact unmarked t (List.mem_of_getLast? last) (of_decide_eq_true ends)

/-- Where no token is left all of them have been taken. -/
theorem Unmarked.place (unmarked : Unmarked xs) (tokens : s.tokens = (TokenStream.close xs).toArray)
    (ends : s.token.kind = .eof) : s.place = xs.length := by
  have here := s.token_at
  have inside := s.place_lt
  rw [tokens, unmarked.close] at here inside
  rw [List.size_toArray, List.length_append, List.length_singleton] at inside
  rcases Nat.lt_or_eq_of_le (Nat.le_of_lt_succ inside) with low | same
  · rw [List.getElem?_toArray, List.getElem?_append_left low] at here
    exact absurd ends (unmarked _ (List.mem_of_getElem? here))
  · exact same

theorem Unmarked.append {ys : List Token} (first : Unmarked xs) (second : Unmarked ys) :
    Unmarked (xs ++ ys) := by
  intro t member
  rcases List.mem_append.mp member with left | right
  · exact first t left
  · exact second t right

variable {ts ys us : List Token}

/-- The tokens behind the first ones. -/
theorem Unmarked.behind (unmarked : Unmarked ts) (split : ts = xs ++ ys) (i : Nat) :
    (TokenStream.close ts).toArray[xs.length + i]? = (ys ++ [TokenStream.closing ts])[i]? := by
  have whole : TokenStream.close ts = xs ++ (ys ++ [TokenStream.closing ts]) := by
    rw [unmarked.close, ← List.append_assoc, ← split]
  rw [List.getElem?_toArray, whole, List.getElem?_append_right (Nat.le_add_right _ _),
    Nat.add_sub_cancel_left]

/-- The token behind a part of a text is the first of the rest, or the mark of the end. -/
theorem Unmarked.edge (unmarked : Unmarked ts) (split : ts = xs ++ (ys ++ us)) {t : Token}
    (found : (TokenStream.close ts).toArray[xs.length + ys.length]? = some t) :
    us.head? = some t ∨ us = [] ∧ t.kind = .eof := by
  rw [unmarked.behind split, List.append_assoc, List.getElem?_append_right (Nat.le_refl _),
    Nat.sub_self] at found
  cases us with
  | nil =>
    cases found
    exact .inr ⟨rfl, rfl⟩
  | cons u us => exact .inl found

/-- At the place in front of the rest of a text stands its first token. -/
theorem Unmarked.token (unmarked : Unmarked ts) (split : ts = xs ++ us)
    (tokens : s.tokens = (TokenStream.close ts).toArray) (place : s.place = xs.length) {t : Token}
    (first : us.head? = some t) : s.token = t := by
  have here := s.token_at
  have split' : ts = xs ++ ([] ++ us) := split
  rw [tokens, place] at here
  rcases unmarked.edge split' here with next | ⟨none, -⟩
  · exact Option.some.inj (next.symm.trans first)
  · rw [none] at first
    cases first

/-- What seals a part of a text that has been read. -/
theorem Unmarked.seals {s' : ParserState} (unmarked : Unmarked ts) (split : ts = xs ++ (ys ++ us))
    (ends : Reach.resting.Ends s s') (tokens : s'.tokens = (TokenStream.close ts).toArray)
    (start : s.place = xs.length) (stop : s'.place = xs.length + ys.length) {t : Token}
    (last : ys.getLast? = some t) : t.kind.isSeal = true := by
  have some : 0 < ys.length := by
    rw [List.length_pos_iff]
    rintro rfl
    cases last
  rcases ends with same | closes
  · omega
  · refine closes.ends t ?_
    rw [tokens, stop, Nat.add_sub_assoc some, unmarked.behind split, List.append_assoc,
      List.getElem?_append_left (Nat.sub_one_lt (Nat.ne_of_gt some))]
    exact List.getLast?_eq_getElem?.symm.trans last

def Overlap.amid {own whole xs xs' ys us us' : List Token} (steady : Bool) (unmarked : Unmarked own)
    (unmarked' : Unmarked whole) (split : own = xs ++ (ys ++ us)) (split' : whole = xs' ++ (ys ++ us'))
    (same : xs'.length = xs.length) (seals : ∀ t, ys.getLast? = some t → t.kind.isSeal = true)
    (bare : ∀ t, us.head? = some t ∨ us'.head? = some t → t.kind.resumes = false) : Overlap where
  own := (TokenStream.close own).toArray
  whole := (TokenStream.close whole).toArray
  start := xs.length
  stop := xs.length + ys.length
  gap := 0
  front := #[]
  steady
  shared k low high := by
    obtain ⟨i, rfl⟩ := Nat.exists_eq_add_of_le low
    have inside : i < ys.length := Nat.lt_of_add_lt_add_left high
    rw [Nat.add_zero, unmarked.behind split]
    rw [← same, unmarked'.behind split']
    simp only [List.append_assoc, List.getElem?_append_left inside]
  closed t high found := by
    have some : 0 < ys.length := by omega
    rw [Nat.add_sub_assoc some, unmarked.behind split, List.append_assoc,
      List.getElem?_append_left (Nat.sub_one_lt (Nat.ne_of_gt some))] at found
    exact seals t (List.getLast?_eq_getElem?.trans found)
  bare t found := by
    have edge : (us.head? = some t ∨ us'.head? = some t) ∨ t.kind = .eof := by
      rcases found with here | there
      · exact (unmarked.edge split here).imp .inl And.right
      · rw [Nat.add_zero, ← same] at there
        exact (unmarked'.edge split' there).imp .inr And.right
    rcases edge with next | ends
    · exact bare t next
    · rw [ends]
      rfl

end Texts

end PhpAnalyser
