import PhpAnalyser.Grammar.Unit
import PhpAnalyser.Proofs.Grammar.State
import PhpAnalyser.Proofs.Grammar.Success
import PhpAnalyser.Proofs.Lexeme.Lexed
import PhpAnalyser.Proofs.Naming.Qualified
/-!
Names as they are read: the words of a text are the segments, and the tokens of a name are words
and backslashes.
-/
namespace PhpAnalyser

/-- Words are segments of names, and no token has the pair of braces for its text that members named
by expressions have for their name. -/
structure Lettered (tokens : Array Token) : Prop where
  segment : ∀ t ∈ tokens, Parser.isWord t.kind = true → IsSegment t.text
  unbraced : ∀ t ∈ tokens, t.text ≠ "{}"

theorem scan_unbraced {source : String} {t : Token} (member : t ∈ scan source) :
    t.text ≠ "{}" := by
  intro braces
  rcases mem_assemble member with ⟨-, empty⟩ | ⟨piece, listed, kind, text⟩
  · rw [empty] at braces
    exact absurd braces (by decide)
  obtain ⟨inProgram, first, rest, shape, chars⟩ := pieces_shaped _ _ piece listed
  -- the first brace would be a token of its own
  have both :
      first :: rest.take (Lexeme.shapeOf inProgram first rest).extra = ['{', '}'] := by
    rw [← chars, ← String.toList_ofList (l := piece.text), ← text, braces]
    rfl
  obtain ⟨rfl, behind⟩ := List.cons.inj both
  cases inProgram with
  | false => cases kind.symm.trans shape
  | true =>
    have alone : (Lexeme.shapeOf true '{' rest).extra = 0 := rfl
    rw [alone] at behind
    cases behind

theorem lettered_scan (source : String) : Lettered (scan source).toArray where
  segment t member word := by
    have here : t ∈ scan source := by simpa using member
    refine ⟨scan_text here fun ends => ?_, fun inside => ?_⟩
    · rw [ends] at word
      cases word
    rcases scan_word here word with named | ⟨-, echo⟩
    · exact absurd (named _ inside) (by decide)
    · rw [echo] at inside
      exact absurd inside (by decide)
  unbraced t member := scan_unbraced (by simpa using member)

structure TakesNames (s s' : ParserState) : Prop where
  tokens : s'.tokens = s.tokens
  place_le : s.place ≤ s'.place
  parts : ∀ k t, s.place ≤ k → k < s'.place → s.tokens[k]? = some t →
    (Parser.isWord t.kind || t.kind = .backslash) = true

namespace TakesNames

variable {s s' s'' : ParserState}

theorem of_stream (same : s'.stream = s.stream) : TakesNames s s' where
  tokens := congrArg (·.tokens) same
  place_le := Nat.le_of_eq (congrArg (·.position) same).symm
  parts k t le lt := by
    have place : s'.place = s.place := congrArg (·.position) same
    omega

theorem refl (s : ParserState) : TakesNames s s := of_stream rfl

theorem trans (first : TakesNames s s') (second : TakesNames s' s'') : TakesNames s s'' where
  tokens := second.tokens.trans first.tokens
  place_le := Nat.le_trans first.place_le second.place_le
  parts k t le lt found := by
    by_cases early : k < s'.place
    · exact first.parts k t le early found
    · exact second.parts k t (by omega) lt (by rwa [first.tokens])

theorem advance (isPart : (Parser.isWord s.token.kind || s.token.kind = .backslash) = true) :
    TakesNames s s.advance := by
  have more : s.token.kind ≠ .eof := by
    intro ends
    rw [ends] at isPart
    cases isPart
  refine ⟨tokens_advance, by rw [place_advance more]; omega, fun k t le lt found => ?_⟩
  rw [place_advance more] at lt
  obtain rfl : k = s.place := by omega
  cases found.symm.trans s.token_at
  exact isPart

end TakesNames

def nameLead (kind : TokenKind) : String := if kind = .backslash then "\\" else ""

inductive NamePart (lead : String) : String → Prop
  | lead (rooted : lead = "\\") : NamePart lead lead
  | whole {name : String} (qualified : Qualified name) : NamePart lead (lead ++ name)
  | ahead {name : String} (qualified : Qualified name) : NamePart lead (lead ++ name ++ "\\")

namespace NamePart

variable {lead written : String}

theorem whole_of_open_ended (part : NamePart lead written)
    (ended : written.toList.getLast? ≠ some '\\') :
    ∃ name, Qualified name ∧ written = lead ++ name := by
  cases part with
  | lead rooted =>
    rw [rooted] at ended
    exact absurd rfl ended
  | whole qualified => exact ⟨_, qualified, rfl⟩
  | ahead qualified => simp at ended

theorem word (part : NamePart lead written) (ended : written.toList.getLast? = some '\\')
    {text : String} (is : IsSegment text) : NamePart lead (written ++ text) := by
  cases part with
  | lead rooted => exact .whole (.segment is)
  | @whole name qualified =>
    have last : name.toList.getLast? = some '\\' := by
      have nonempty : name.toList ≠ [] := by simpa using qualified.nonempty
      rwa [String.toList_append, List.getLast?_append, List.getLast?_eq_some_getLast nonempty,
        Option.some_or, ← List.getLast?_eq_some_getLast nonempty] at ended
    exact absurd last qualified.open_ended
  | @ahead name qualified =>
    have joined : lead ++ name ++ "\\" ++ text = lead ++ joinName name text := by
      simp [joinName, String.append_assoc]
    rw [joined]
    exact .whole (qualified.join (.segment is))

end NamePart

variable {s : ParserState}

inductive NameHead (s : ParserState) : String → ParserState → Prop
  | relative (word : s.token.kind = .keyword .namespace_)
      (follows : (s.stream.peek 1).kind = .backslash) : NameHead s "namespace" s.advance
  | root (absolute : s.token.kind = .backslash) : NameHead s "\\" s.advance
  | word (word : s.token.kind = .identifier) : NameHead s s.token.text s.advance

theorem NameHead.succeeds : Succeeds Parser.nameHead s (NameHead s) := by
  refine .current <| .ahead <| .ite (fun relative => ?_) fun _ => .ite (fun absolute => ?_) fun _ =>
    .ite (fun word => ?_) fun _ => .unexpected
  · rw [Bool.and_eq_true, decide_eq_true_eq, decide_eq_true_eq] at relative
    exact .skip <| .pure (.relative relative.1 relative.2)
  · exact .skip <| .pure (.root absolute)
  · exact .skip <| .pure (.word word)

def Parser.nameStep (written : String) : Parser (ForInStep String) := do
  let token ← current
  if written.toList.getLast? = some '\\' then
    if isWord token.kind then
      skip
      return .yield (written ++ token.text)
    unexpected ["name"]
  else if token.kind = .backslash && isWord (← ahead 1).kind then
    skip
    return .yield (written ++ "\\")
  else return .done written

inductive NameStep (s : ParserState) (written : String) : ForInStep String → ParserState → Prop
  | word (ended : written.toList.getLast? = some '\\')
      (word : Parser.isWord s.token.kind = true) :
      NameStep s written (.yield (written ++ s.token.text)) s.advance
  | joint (ended : written.toList.getLast? ≠ some '\\') (joins : s.token.kind = .backslash) :
      NameStep s written (.yield (written ++ "\\")) s.advance
  | done (ended : written.toList.getLast? ≠ some '\\') : NameStep s written (.done written) s

theorem NameStep.succeeds (written : String) :
    Succeeds (Parser.nameStep written) s (NameStep s written) := by
  refine .current <| .ite (fun ended => .ite (fun word => ?_) fun _ => .unexpected) fun ended =>
    .ahead <| .ite (fun goes => ?_) fun _ => .pure (.done ended)
  · exact .skip <| .pure (.word ended word)
  · rw [Bool.and_eq_true, decide_eq_true_eq] at goes
    exact .skip <| .pure (.joint ended goes.1)

/-- What each step of a name keeps holds of its end. -/
theorem NameStep.tail_succeeds {I : String → ParserState → Prop} {written : String}
    (start : I written s)
    (each : ∀ written s', I written s' →
      ∀ next s'', NameStep s' written (.yield next) s'' → I next s'') :
    Succeeds (Parser.nameTail written) s fun written' s' =>
      I written' s' ∧ written'.toList.getLast? ≠ some '\\' := by
  refine .repeatFrom start fun written s' holds =>
    (NameStep.succeeds written).mono fun r s'' step => ?_
  cases r with
  | yield next => exact each written s' holds next s'' step
  | done all =>
    cases step with
    | done ended => exact ⟨holds, ended⟩

theorem name_head_succeeds (lettered : Lettered s.tokens) :
    Succeeds Parser.nameHead s fun head s' =>
      TakesNames s s' ∧ NamePart (nameLead s.token.kind) head := by
  refine NameHead.succeeds.mono fun head s' starts => ?_
  cases starts with
  | relative word =>
    have is : IsSegment "namespace" := ⟨by decide, by decide⟩
    refine ⟨.advance (by rw [word]; rfl), ?_⟩
    rw [word]
    simpa [nameLead] using (NamePart.whole (.segment is) : NamePart "" _)
  | root absolute =>
    refine ⟨.advance (by rw [absolute]; rfl), ?_⟩
    rw [absolute]
    exact .lead rfl
  | word word =>
    have is := lettered.segment _ s.token_mem (by rw [word]; rfl)
    refine ⟨.advance (by rw [word]; rfl), ?_⟩
    rw [word]
    simpa [nameLead] using (NamePart.whole (.segment is) : NamePart "" _)

theorem name_tail_succeeds (lettered : Lettered s.tokens) {lead written : String}
    (part : NamePart lead written) : Succeeds (Parser.nameTail written) s fun written' s' =>
      TakesNames s s' ∧ ∃ name, Qualified name ∧ written' = lead ++ name := by
  refine (NameStep.tail_succeeds (I := fun written s' => TakesNames s s' ∧ NamePart lead written)
    ⟨.refl s, part⟩ ?_).mono
    fun _ _ ⟨⟨takes, part⟩, ended⟩ => ⟨takes, part.whole_of_open_ended ended⟩
  intro written s₁ ⟨takes, part⟩ _ _ step
  cases step with
  | word ended word =>
    have is := lettered.segment _ (takes.tokens ▸ s₁.token_mem) word
    exact ⟨takes.trans (.advance (by rw [word, Bool.true_or])), part.word ended is⟩
  | joint ended joins =>
    refine ⟨takes.trans (.advance (by rw [joins]; rfl)), ?_⟩
    obtain ⟨name, qualified, rfl⟩ := part.whole_of_open_ended ended
    exact .ahead qualified

/-- A name that is read has segments between its backslashes, and is rooted if it starts with
one. -/
theorem name_succeeds (lettered : Lettered s.tokens) :
    Succeeds Parser.name s fun written s' => TakesNames s s' ∧
      ∃ name, Qualified name ∧ written.1 = nameLead s.token.kind ++ name := by
  refine .current <| .bind (name_head_succeeds lettered) fun head s₁ ⟨takes, part⟩ => ?_
  refine .bind (name_tail_succeeds (takes.tokens ▸ lettered) part) fun written s₂ ⟨more, is⟩ => ?_
  exact .get <| .pure ⟨takes.trans more, is⟩

/-- A name that does not start with a backslash is qualified. -/
theorem qualified_of_name {s' : ParserState} {written : String × Span}
    (lettered : Lettered s.tokens) (run : Parser.name s = some (.ok written, s')) (rootless : s.token.kind ≠ .backslash) :
    Qualified written.1 := by
  obtain ⟨-, name, qualified, same⟩ := name_succeeds lettered _ _ run
  rw [nameLead, if_neg rootless, String.empty_append] at same
  exact same ▸ qualified

theorem written_of_name {s' : ParserState} {written : String × Span} (lettered : Lettered s.tokens)
    (run : Parser.name s = some (.ok written, s')) : WrittenName written.1 := by
  obtain ⟨-, name, qualified, same⟩ := name_succeeds lettered _ _ run
  unfold nameLead at same
  split at same
  · exact .inr ⟨name, qualified, same⟩
  · exact .inl (by simpa [same] using qualified)

/-- The global namespace has no name. -/
theorem package_name_succeeds (lettered : Lettered s.tokens) :
    Succeeds Parser.packageName s fun package _ => package = "" ∨ Qualified package := by
  refine .check <| .ite (fun word => ?_) fun _ => .pure (.inl rfl)
  have rootless : s.token.kind ≠ .backslash := by
    rw [of_decide_eq_true word]
    nofun
  exact .bind (fun _ _ run => qualified_of_name lettered run rootless) fun _ _ is => .pure (.inr is)

def tokenKind (tokens : Array Token) (k : Nat) : Option TokenKind := tokens[k]?.map (·.kind)

structure InGroup (tokens : Array Token) (j k : Nat) : Prop where
  root : tokenKind tokens j = some .backslash
  opens : tokenKind tokens (j + 1) = some .leftBrace
  behind : j + 2 ≤ k
  unclosed : ∀ i, j + 2 ≤ i → i < k → tokenKind tokens i ≠ some .rightBrace

structure AtMember (tokens : Array Token) (j k : Nat) : Prop extends InGroup tokens j k where
  starts : k = j + 2 ∨ tokenKind tokens (k - 1) = some .comma

/-- Some member of a group of imports is written with a backslash in front. -/
def HasRootedMember (tokens : Array Token) : Prop :=
  ∃ j k, AtMember tokens j k ∧ tokenKind tokens k = some .backslash

instance (tokens : Array Token) (j k : Nat) : Decidable (AtMember tokens j k) :=
  decidable_of_iff ((tokenKind tokens j = some .backslash ∧
      tokenKind tokens (j + 1) = some .leftBrace ∧ j + 2 ≤ k ∧
      ∀ i, i < k → j + 2 ≤ i → tokenKind tokens i ≠ some .rightBrace) ∧
      (k = j + 2 ∨ tokenKind tokens (k - 1) = some .comma))
    ⟨fun ⟨⟨root, opens, behind, unclosed⟩, starts⟩ =>
      ⟨⟨root, opens, behind, fun i low lt => unclosed i lt low⟩, starts⟩,
    fun start => ⟨⟨start.root, start.opens, start.behind, fun i lt low => start.unclosed i low lt⟩,
      start.starts⟩⟩

instance (tokens : Array Token) : Decidable (HasRootedMember tokens) :=
  decidable_of_iff (∃ k, k < tokens.size ∧ ∃ j, j < k ∧ AtMember tokens j k ∧
      tokenKind tokens k = some .backslash)
    ⟨fun ⟨k, _, j, _, start, root⟩ => ⟨j, k, start, root⟩, fun ⟨j, k, start, root⟩ => by
      obtain ⟨t, found, -⟩ := Option.map_eq_some_iff.mp root
      have behind := start.behind
      exact ⟨k, (Array.getElem?_eq_some_iff.mp found).1, j, by omega, start, root⟩⟩

theorem tokenKind_place (s : ParserState) : tokenKind s.tokens s.place = some s.token.kind := by
  rw [tokenKind, s.token_at]
  rfl

theorem TakesNames.in_group {s s' : ParserState} (takes : TakesNames s s') {j : Nat}
    (inside : InGroup s.tokens j s.place) : InGroup s.tokens j s'.place where
  root := inside.root
  opens := inside.opens
  behind := Nat.le_trans inside.behind takes.place_le
  unclosed i low lt closes := by
    by_cases early : i < s.place
    · exact inside.unclosed i low early closes
    · obtain ⟨t, found, kind⟩ := Option.map_eq_some_iff.mp closes
      have part := takes.parts i t (by omega) lt found
      rw [kind] at part
      cases part

theorem import_alias_takes_names {name : String} :
    Succeeds (Parser.importAlias name) s fun _ s' => TakesNames s s' := by
  refine .eat (fun as_ => .ite (fun _ => ?_) fun no => absurd rfl no) fun _ =>
    .ite (fun no => nomatch no) fun _ => .pure (.refl s)
  have first : TakesNames s s.advance := .advance (by rw [as_]; rfl)
  refine .bind .expect ?_
  rintro _ _ ⟨rfl, word, rfl⟩
  exact .pure (first.trans (.advance (by rw [word]; rfl)))

theorem import_clause_takes_names {start : Span} {name : String} {recorded : Bool} :
    Succeeds (Parser.importClause start name recorded) s fun _ s' => TakesNames s s' := by
  refine .bind import_alias_takes_names fun shortName s₁ takes =>
    .ite (fun _ => .pure takes) fun _ => .modify <| .bind .finish ?_
  rintro _ _ ⟨rfl, rfl⟩
  exact .pure (takes.trans (.of_stream rfl))

/-- Behind the opening brace of a group its first member starts. -/
theorem at_first_member {s : ParserState} (root : s.token.kind = .backslash)
    (opens : (s.stream.peek 1).kind = .leftBrace) :
    AtMember s.tokens s.place s.advance.advance.place := by
  have more : s.token.kind ≠ .eof := by rw [root]; nofun
  rw [peek_one more] at opens
  have more' : s.advance.token.kind ≠ .eof := by rw [opens]; nofun
  have second : tokenKind s.tokens (s.place + 1) = some .leftBrace := by
    rw [← place_advance more, ← tokens_advance, tokenKind_place, opens]
  rw [place_advance more', place_advance more]
  refine ⟨⟨?_, second, Nat.le_refl _, fun i low lt => by omega⟩, .inl rfl⟩
  rw [tokenKind_place, root]

/-- Behind the comma that ends a member the next one starts. -/
theorem InGroup.advance {s : ParserState} {j : Nat} (inside : InGroup s.tokens j s.place)
    (comma : s.token.kind = .comma) : AtMember s.tokens j s.advance.place := by
  have here : tokenKind s.tokens s.place = some .comma := by rw [tokenKind_place, comma]
  have place : s.advance.place = s.place + 1 := place_advance (by rw [comma]; nofun)
  rw [place]
  refine
    ⟨⟨inside.root, inside.opens, Nat.le_succ_of_le inside.behind, fun i low lt => ?_⟩, .inr here⟩
  rcases Nat.lt_succ_iff_lt_or_eq.mp lt with early | rfl
  · exact inside.unclosed i low early
  · rw [here]
    nofun

end PhpAnalyser
