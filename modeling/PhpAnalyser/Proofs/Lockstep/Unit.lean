import PhpAnalyser.Proofs.Grammar.Unit
import PhpAnalyser.Proofs.Lockstep.Statement
/-!
Nested readers, and the productions of files, read side by side. A namespace without braces goes on
behind the end of a text of its own.
-/
namespace PhpAnalyser

variable {α β : Type} {E : Excerpt} {s t : ParserState}

theorem nested_run {p : Parser α} : Parser.nested p s =
    if s.deeper.depth > Parser.maxNesting then
      some (.error ⟨.nestingTooDeep Parser.maxNesting, s.token.span⟩, s.deeper)
    else Parser.restoring ParserState.shallower p s.deeper := by
  have enter : Parser.enterNesting s = (if s.deeper.depth > Parser.maxNesting then
      throw ⟨.nestingTooDeep Parser.maxNesting, s.token.span⟩ else pure () : Parser Unit)
        s.deeper := rfl
  rw [Parser.nested, run_bind, enter]
  by_cases deep : s.deeper.depth > Parser.maxNesting
  · rw [if_pos deep, if_pos deep]
    rfl
  · rw [if_neg deep, if_neg deep]
    rfl

theorem Twin.deeper (twin : Twin E s t) : Twin E s.deeper t.deeper where
  toNear := { twin.toNear with depth := congrArg (· + 1) twin.depth }
  more := twin.more

theorem Near.shallower (near : Near E s t) : Near E s.shallower t.shallower :=
  { near with depth := congrArg (· - 1) near.depth }

theorem Twin.shallower (twin : Twin E s t) : Twin E s.shallower t.shallower where
  toNear := twin.toNear.shallower
  more := twin.more

theorem Meets.nested {p : Parser α} {q : Parser β} {P P' : α → ParserState → Outcome β → Prop}
    (twin : Twin E s t) (meets : Meets E p q s.deeper t.deeper P')
    (holds : ∀ a s' r t', P' a s' (r, t') → P a s'.shallower (r, t'.shallower)) :
    Meets E (Parser.nested p) (Parser.nested q) s t P := by
  intro out run
  rw [nested_run] at run ⊢
  have same : s.deeper.depth = t.deeper.depth := twin.deeper.depth
  rw [← same] at run
  split at run
  next deep =>
    rw [if_pos deep]
    exact fun no => nomatch no
  next fine =>
    rw [if_neg fine]
    have behind : Meets E (Parser.restoring ParserState.shallower p)
        (Parser.restoring ParserState.shallower q) s.deeper t.deeper P :=
      meets.restoring (fun _ => rfl) (fun _ => rfl) (fun _ _ => Twin.shallower) holds
    exact behind out run

theorem starved_nested {p : Parser α} (starved : Starved p s.deeper) :
    Starved (Parser.nested p) s := by
  unfold Starved Spends at starved ⊢
  rw [nested_run]
  by_cases deep : s.deeper.depth > Parser.maxNesting
  · rw [if_pos deep]
    rfl
  · rw [if_neg deep]
    have run : Parser.restoring ParserState.shallower p s.deeper =
        (p s.deeper).bind fun out => some (out.1, out.2.shallower) := rfl
    rw [run]
    revert starved
    rcases p s.deeper with - | ⟨e | a, s'⟩
    · exact id
    · exact id
    · exact id

theorem Frayed.shallower {depth : Nat} {s' t' : ParserState}
    (frayed : Frayed E (Hale (depth + 1) t.deeper) s' t') :
    Frayed E (Hale depth t) s'.shallower t'.shallower := by
  rintro ⟨c, rfl, sound⟩
  exact frayed ⟨c.deeper, rfl, sound.deeper⟩

/-- The readers at each depth, down to the deepest one. -/
theorem lockstep_nested (levels depth : Nat) (enough : depth + levels = Parser.maxNesting) :
    Lockstep E depth (Parser.nestedAt levels) := by
  induction levels generalizing depth with
  | zero =>
    have stuck {α : Type} (s t : ParserState) :
        Meets E (Parser.stuck : Parser α) Parser.stuck s t fun _ _ (_ : Outcome α) => False :=
      fun _ no => nomatch no
    constructor
    case readers => exact readers_nested 0 depth enough
    case expression =>
      exact fun least s t twin => .nested twin (stuck _ _) fun _ _ _ _ no => no.elim
    case statement => exact fun s t twin => .nested twin (stuck _ _) fun _ _ _ _ no => no.elim
    case starved => exact fun least s _ => starved_nested trivial
  | succ levels ih =>
    have inner : Lockstep E (depth + 1) (Parser.nestedAt levels) := ih (depth + 1) (by omega)
    constructor
    case readers => exact readers_nested (levels + 1) depth enough
    case expression =>
      intro least s t twin
      refine .nested twin (binary_steady inner _ _ twin.deeper) ?_
      rintro a s' (_ | b) t' holds
      · exact holds
      · exact ⟨holds.1.shallower, trivial⟩
    case statement =>
      intro s t twin
      refine .nested twin (statement_meets inner twin.deeper) ?_
      rintro a s' (_ | b) t' (⟨ends, frayed⟩ | both)
      · exact .inl ⟨ends, frayed.shallower⟩
      · exact both.elim
      · exact .inl ⟨ends, frayed.shallower⟩
      · exact .inr ⟨both.1.shallower, trivial⟩
    case starved => exact fun least s ends => starved_nested (starved_binary ends)

theorem lockstep_outermost : Lockstep E 0 Parser.outermost :=
  lockstep_nested Parser.maxNesting 0 (Nat.zero_add _)

theorem import_alias_steady {name : String} : Steady E (Parser.importAlias name) Any := by
  intro s t twin
  refine (eat_steady (by nofun)).same twin fun renamed s t twin => ?_
  refine .ite .rfl (fun _ => ?_) fun _ => .pure ⟨twin, trivial⟩
  exact (expect_steady (by nofun)).then twin fun _ s _ t twin => .pure ⟨twin, trivial⟩

theorem import_clause_meets {start start' : Span} {name : String} {recorded : Bool}
    (twin : Twin E s t) :
    Meets E (Parser.importClause start name recorded) (Parser.importClause start' name recorded) s t
      (Steadily E Any) := by
  refine import_alias_steady.then twin fun shortName s shortName' t twin => ?_
  refine .ite .rfl (fun _ => .pure ⟨twin, trivial⟩) fun _ => ?_
  have recorded {names : ParserState → NameContext} :
      Quiet (modify fun s => { s with names := names s } : Parser Unit) := by
    rintro s r s' ⟨⟩
    exact ⟨⟨_, rfl⟩, rfl, rfl, rfl, rfl⟩
  refine (recorded.meets recorded twin).bind fun _ s _ t twin _ => ?_
  exact (finish_meets twin).bind fun i s j t twin _ => .pure ⟨twin, trivial⟩

theorem import_group_meets {start start' : Span} {group : String} {recorded : Bool}
    (twin : Twin E s t) :
    Meets E (Parser.importGroup start group recorded) (Parser.importGroup start' group recorded) s t
      (Steadily E Any) := by
  refine .loop (R := Any) twin trivial fun ids ids' s t twin _ => ?_
  refine .name twin fun written span span' s t twin => ?_
  refine (import_clause_meets twin).bind fun more s more' t twin _ => ?_
  refine (eat_steady (by nofun)).same twin fun eaten s t twin => ?_
  refine .ite .rfl (fun _ => .pure ⟨twin, trivial⟩) fun _ => ?_
  exact .check twin (fun _ => .pure ⟨twin, trivial⟩) fun _ => .pure ⟨twin, trivial⟩

theorem import_item_steady {recorded : Bool} : Steady E (Parser.importItem recorded) Any := by
  intro s t twin
  refine .current <| .name twin fun written span span' s t twin => ?_
  refine .test <| .ahead <| .ite ?_ (fun isGroup => ?_) fun _ => import_clause_meets twin
  · rw [twin.guarded (p := fun kind => kind = .backslash) (q := fun kind => kind = .leftBrace) rfl]
  rw [Bool.and_eq_true, decide_eq_true_eq, decide_eq_true_eq, peek_one twin.more] at isGroup
  refine .skip twin (by rw [isGroup.1]; nofun) fun twin => ?_
  refine .skip twin (by rw [isGroup.2]; nofun) fun twin => ?_
  refine (import_group_meets twin).bind fun ids s ids' t twin _ => ?_
  exact .mark twin (by nofun) fun s t twin => .pure ⟨twin, trivial⟩

theorem imports_types_steady : Steady E Parser.importsTypes Same := by
  intro s t twin
  refine .current ?_
  rw [← twin.like.kind]
  refine .ite .rfl (fun isWord => ?_) fun _ => .pure ⟨twin, rfl⟩
  refine .skip twin (fun no => ?_) fun twin => .pure ⟨twin, rfl⟩
  rw [no] at isWord
  cases isWord

theorem imports_meets (twin : Twin E s t) (other : s.token.kind ≠ .semicolon) :
    Meets E Parser.imports Parser.imports s t (Both (Near E) Any) := by
  refine .advance twin other fun _ twin => imports_types_steady.same twin fun recorded s t twin => ?_
  refine (comma_separated_steady import_item_steady).then twin fun ids s ids' t twin => ?_
  exact (finish_statement_meets twin).dropped.behind fun _ s _ t near _ => .pure ⟨near, trivial⟩

theorem package_name_steady : Steady E Parser.packageName Any := by
  intro s t twin
  refine .check twin (fun _ => ?_) fun _ => .pure ⟨twin, trivial⟩
  exact .name twin fun written span span' s t twin => .pure ⟨twin, trivial⟩

def spaceHead : Parser (Token × String × Bool) := do
  let start ← Parser.advance
  let package ← Parser.packageName
  modify fun s => { s with names := .ofNamespace package }
  if ← Parser.eat .leftBrace then return (start, package, true)
  discard <| Parser.finishStatement start.span
  return (start, package, false)

def spaceContents (item : Parser (List Nat)) : Bool → Parser (List Nat)
  | true => do
    let ids ← Parser.recovering (fun t => t.kind = .rightBrace) item
    discard <| Parser.expect .rightBrace "'\x7d'"
    return ids
  | false => Parser.recovering (fun t => t.kind = .keyword .namespace_) item

theorem namespace_declaration_eq (item : Parser (List Nat)) :
    Parser.namespaceDeclaration item = (do
      let (start, package, braced) ← spaceHead
      let ids ← spaceContents item braced
      Parser.finish (.namespace_ package) start.span ids) := by
  simp only [Parser.namespaceDeclaration, Parser.namespaceBody, spaceHead, bind_assoc]
  congr 1
  funext start
  congr 1
  funext package
  congr 1
  funext _
  congr 1
  funext braced
  cases braced
  · simp [spaceContents]
  · simp [spaceContents]

theorem space_head_meets (twin : Twin E s t) (word : s.token.kind = .keyword .namespace_) :
    Meets E spaceHead spaceHead s t (Both (Near E) fun a s b t =>
      a.2.2 = b.2.2 ∧ (a.2.2 = true → Twin E s t)) := by
  have renamed {names : ParserState → NameContext} :
      Quiet (modify fun s => { s with names := names s } : Parser Unit) := by
    rintro s r s' ⟨⟩
    exact ⟨⟨_, rfl⟩, rfl, rfl, rfl, rfl⟩
  refine .advance twin (by rw [word]; nofun) fun _ twin => ?_
  refine package_name_steady.then twin fun package s package' t twin => ?_
  refine (renamed.meets renamed twin).bind fun _ s _ t twin _ => ?_
  refine (eat_steady (by nofun)).same twin fun braced s t twin => ?_
  refine .ite .rfl (fun _ => .pure ⟨twin.toNear, rfl, fun _ => twin⟩) fun _ => ?_
  refine (finish_statement_meets twin).dropped.behind fun _ s _ t near _ => ?_
  exact .pure ⟨near, rfl, fun no => nomatch no⟩

theorem idle_recovering {stop : Token → Bool} {item : Parser (List Nat)}
    (ends : s.token.kind = .eof) : Idle (Parser.recovering stop item) s := by
  rw [recovering_eq]
  exact Idle.repeatFrom (fun _ _ => idle_list_step) ends

/-- Reading up to a token of one kind. -/
theorem recovering_kind_free {kind : TokenKind} {item item' : Parser (List Nat)} (twin : Twin E s t)
    (free : ∀ s t, Twin E s t → Meets E item item' s t (Closes E Freely Any)) :
    Meets E (Parser.recovering (fun t => t.kind = kind) item)
      (Parser.recovering (fun t => t.kind = kind) item') s t (Closes E Freely Any) :=
  recovering_free (fun a b like => by rw [like.kind]) free twin

/-- In braces a namespace ends with the text of its own. -/
theorem space_braces_meets {item item' : Parser (List Nat)} (twin : Twin E s t)
    (free : ∀ s t, Twin E s t → Meets E item item' s t (Closes E Freely Any)) :
    Meets E (spaceContents item true) (spaceContents item' true) s t (Both (Near E) Any) := by
  refine (recovering_kind_free twin free).shut ?_ ?_
  · exact fun ids s ends => starved_mark ends (by nofun)
  · exact fun ids s ids' t twin _ =>
      .mark twin (by nofun) fun s t twin => .pure ⟨twin.toNear, trivial⟩

/-- Without braces it may go on. -/
theorem space_contents_free {item item' : Parser (List Nat)} {braced : Bool} (near : Near E s t)
    (inside : braced = true → Twin E s t)
    (free : ∀ s t, Twin E s t → Meets E item item' s t (Closes E Freely Any)) :
    Meets E (spaceContents item braced) (spaceContents item' braced) s t
      (Closes E Freely Any) := by
  cases braced with
  | true => exact (space_braces_meets (inside rfl) free).closes
  | false =>
    simp only [spaceContents]
    by_cases ends : s.token.kind = .eof
    · exact fun out _ => (idle_recovering ends).answers fun _ _ ends _ => .inl ⟨ends, trivial⟩
    · exact recovering_kind_free ⟨near, ends⟩ free

/-- A statement of a file. Behind the end of the first text nothing is said of the second. -/
theorem top_statement_free (fuel fuel' : Nat) (twin : Twin E s t) :
    Meets E (Parser.topStatement fuel) (Parser.topStatement fuel') s t (Closes E Freely Any) := by
  induction fuel' generalizing fuel s t with
  | zero => exact fun _ no => nomatch no
  | succ fuel' ih =>
    cases fuel with
    | zero => exact fun _ _ => trivial
    | succ fuel =>
      refine .current <| .ahead <| .ite ?_ (fun opens => ?_) fun _ => .ite ?_ (fun uses => ?_) fun _ => ?_
      · have same := twin.guarded (p := fun kind => kind = .keyword .namespace_)
          (q := fun kind => kind ≠ .backslash) rfl
        exact iff_of_eq (congrArg (· = true) same)
      · rw [Bool.and_eq_true, decide_eq_true_eq] at opens
        rw [namespace_declaration_eq, namespace_declaration_eq, bind_assoc, bind_assoc]
        refine (space_head_meets twin opens.1).behind ?_
        rintro ⟨start, package, braced⟩ s ⟨start', package', _⟩ t near ⟨rfl, inside⟩
        rw [bind_assoc, bind_assoc]
        refine (space_contents_free near inside fun s t twin => ih fuel twin).last ?_ ?_
        · exact fun _ => .bind finish_builds.quiet fun _ => .pure _
        · exact fun _ => .bind finish_builds.quiet fun _ => .pure _
      · rw [twin.like.kind]
      · exact (imports_meets twin (by rw [uses]; nofun)).closes
      · refine (lockstep_outermost.statement s t twin).freely.last ?_ ?_
        · exact fun _ => .pure _
        · exact fun _ => .pure _

end PhpAnalyser
