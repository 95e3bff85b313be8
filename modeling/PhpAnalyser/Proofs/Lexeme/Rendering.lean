import PhpAnalyser.Proofs.Lexeme.Literals
/-!
Tokens stand on their own: a text that puts each token of another text on a line of its own is
read as the same tokens.
-/
namespace PhpAnalyser

namespace Lexeme

theorem cast_length_eq {text rest behind : List Char}
    (first : text.drop (run spaceOrTab text) = rest)
    (second : rest.drop (run Char.isAlpha rest) = behind) :
    castLength text =
      if castTypes.contains (asciiLower (String.ofList (rest.takeWhile Char.isAlpha))) &&
          startsWith (behind.drop (run spaceOrTab behind)) ")" then
        some (run spaceOrTab text + (run Char.isAlpha rest + (run spaceOrTab behind + 1)))
      else none := by
  subst second first
  simp only [castLength, List.drop_drop, Nat.add_assoc]
  rfl

theorem cast_length_settled {text : List Char} {n : Nat} (found : castLength text = some n) :
    Settled castLength text n := by
  have blanks : Stops (run spaceOrTab) := .run rfl
  have letters : Stops (run Char.isAlpha) := .run rfl
  obtain ⟨rest, first⟩ : ∃ rest, text.drop (run spaceOrTab text) = rest := ⟨_, rfl⟩
  obtain ⟨behind, second⟩ : ∃ behind, rest.drop (run Char.isAlpha rest) = behind := ⟨_, rfl⟩
  have whole := cast_length_eq first second
  rw [found] at whole
  split at whole
  case isFalse => cases whole
  rename_i cast
  cases whole
  constructor
  · have inText := congrArg List.length first
    have inRest := congrArg List.length second
    have close : 1 ≤ _ := prefix_length (Bool.and_eq_true_iff.mp cast).2
    simp only [List.length_drop] at inText inRest close
    omega
  · intro tail
    have front := blanks.behind (run Char.isAlpha rest + (run spaceOrTab behind + 1)) text tail
    have word := letters.behind (run spaceOrTab behind + 1) rest tail
    rw [first] at front
    rw [second] at word
    have letter : (cut (run Char.isAlpha rest + (run spaceOrTab behind + 1)) rest tail).takeWhile
        Char.isAlpha = rest.takeWhile Char.isAlpha := by
      rw [take_while_cut rfl, List.take_of_length_le]
      exact Nat.le_add_right ..
    have one : decide (")".length ≤ 1) = true := rfl
    rw [cast_length_eq front word, found, letter, blanks.behind, starts_with_cut (by decide), one,
      Bool.and_true, if_pos cast, blanks.front, letters.front, blanks.front]

theorem cast_length_break (tail : List Char) : castLength ('\n' :: tail) = none := by
  have none : castTypes.contains (asciiLower (String.ofList [])) = false := by decide
  rw [cast_length_eq rfl rfl]
  simp [none, run, spaceOrTab, -List.contains_eq_mem]

theorem symbols_solid : ∀ entry ∈ symbols, '\n' ∉ entry.1.toList := by decide

theorem starts_symbol_cut {entry : String × TokenKind} (listed : entry ∈ symbols) (first : Char)
    (n : Nat) (text tail : List Char) :
    startsWith (first :: cut n text tail) entry.1 =
      (startsWith (first :: text) entry.1 && decide (entry.1.length ≤ n + 1)) :=
  starts_with_cut (symbols_solid entry listed) (n + 1) (first :: text) tail

/-- A symbol that is cut off where it ends is still the first one that fits: what fits the text
behind the cut fits the whole text. -/
theorem find_symbol_cut {entry : String × TokenKind} {first : Char} {text : List Char}
    (found : symbols.find? (fun entry => startsWith (first :: text) entry.1) = some entry)
    {n : Nat} (tail : List Char) (long : entry.1.length ≤ n + 1) :
    symbols.find? (fun entry => startsWith (first :: cut n text tail) entry.1) = some entry := by
  have listed := List.mem_of_find?_eq_some found
  obtain ⟨starts, before, after, order, earlier⟩ := List.find?_eq_some_iff_append.mp found
  refine List.find?_eq_some_iff_append.mpr ⟨?_, before, after, order, ?_⟩
  · rw [starts_symbol_cut listed, starts, decide_eq_true long]
    rfl
  · intro other member
    have inList : other ∈ symbols := order ▸ List.mem_append_left _ member
    have fails : startsWith (first :: text) other.1 = false := by
      simpa using earlier other member
    rw [starts_symbol_cut inList, fails]
    rfl

theorem symbol_settled {first : Char} {text : List Char}
    (sound : (symbol first text).1.isError = false) :
    Settled (symbol first) text (symbol first text).2 := by
  cases found : symbols.find? (fun entry => startsWith (first :: text) entry.1) with
  | none => simp [symbol, found, TokenKind.isError] at sound
  | some entry =>
    have whole : symbol first text = (entry.2, entry.1.length - 1) := by rw [symbol, found]
    have starts := List.find?_some found
    rw [whole]
    constructor
    · exact Nat.sub_le_of_le_add (prefix_length starts)
    · intro tail
      rw [whole, symbol, find_symbol_cut found tail (Nat.le_add_of_sub_le (Nat.le_refl _))]

theorem symbol_paren (text : List Char) : (symbol '(' text).2 = 0 := rfl

theorem name_token_settled (first : Char) (text : List Char) :
    Settled (nameToken first) text (nameToken first text).2 := by
  constructor
  · exact (List.takeWhile_sublist continuesName).length_le
  · intro tail
    have same : (cut (nameToken first text).2 text tail).takeWhile continuesName =
        text.takeWhile continuesName := by
      rw [take_while_cut (by decide)]
      exact List.take_length
    rw [nameToken, same, nameToken]

/-- A choice is settled where the part that it takes is settled and the answer stays. -/
theorem Settled.ite (asks : List Char → Bool) (first second : List Char → TokenKind × Nat)
    {text : List Char}
    (yes : asks text = true → Settled first text (first text).2 ∧
      ∀ tail, asks (cut (first text).2 text tail) = true)
    (no : asks text = false → Settled second text (second text).2 ∧
      ∀ tail, asks (cut (second text).2 text tail) = false) :
    Settled (fun text => if asks text then first text else second text) text
      (if asks text then first text else second text).2 := by
  cases answer : asks text with
  | true =>
    obtain ⟨settled, still⟩ := yes answer
    exact ⟨settled.bound, fun tail => by simp [still, answer, settled.same tail]⟩
  | false =>
    obtain ⟨settled, still⟩ := no answer
    exact ⟨settled.bound, fun tail => by simp [still, answer, settled.same tail]⟩

section First

variable {text : List Char}

theorem run_pos {p q : Char → Bool} (weaker : ∀ c, p c = true → q c = true)
    (holds : text.head?.any p = true) : 0 < run q text := by
  cases text with
  | nil => cases holds
  | cons c text => simp [run, weaker c (by simpa using holds)]

theorem dollar_settled : Settled (tokenShape '$') text (tokenShape '$' text).2 := by
  have name : Stops (run continuesName) := .run rfl
  refine Settled.ite (fun text => text.head?.any startsName)
    (fun text => (.variable, run continuesName text)) (fun _ => (.dollar, 0)) ?_ ?_
  · intro starts
    have pos : 0 < run continuesName text :=
      run_pos (fun c starts => by simp [continuesName, starts]) starts
    refine ⟨⟨name.le text, fun tail => by rw [name.cut tail (Nat.le_refl _)]⟩, ?_⟩
    intro tail
    rw [head_cut (by decide), starts, decide_eq_true pos]
    rfl
  · intro _
    exact ⟨⟨Nat.zero_le _, fun tail => rfl⟩, fun tail => rfl⟩

theorem point_settled (sound : (tokenShape '.' text).1.isError = false) :
    Settled (tokenShape '.') text (tokenShape '.' text).2 := by
  have same : tokenShape '.' text =
      if text.head?.any Char.isDigit then pointNumber text else symbol '.' text := rfl
  refine Settled.ite (fun text => text.head?.any Char.isDigit) pointNumber (symbol '.') ?_ ?_
  · intro digit
    have pos : 0 < (pointNumber text).2 :=
      Nat.lt_of_lt_of_le (run_pos (fun c digit => by simp [digitOrLine, digit]) digit)
        (Nat.le_add_right ..)
    refine ⟨point_number_settled text, ?_⟩
    intro tail
    rw [head_cut rfl, digit, decide_eq_true pos]
    rfl
  · intro other
    rw [same, other] at sound
    refine ⟨symbol_settled sound, ?_⟩
    intro tail
    rw [head_cut rfl, other]
    rfl

theorem angle_settled (sound : (tokenShape '<' text).1.isError = false) :
    Settled (tokenShape '<') text (tokenShape '<' text).2 := by
  have same : tokenShape '<' text =
      if startsWith text "<<" then ((heredoc (text.drop 2)).1, (heredoc (text.drop 2)).2 + 2)
      else if startsWith text "?=" then (.keyword .echo_, 2) else symbol '<' text := rfl
  refine Settled.ite (fun text => startsWith text "<<")
    (fun text => ((heredoc (text.drop 2)).1, (heredoc (text.drop 2)).2 + 2))
    (fun text => if startsWith text "?=" then (.keyword .echo_, 2) else symbol '<' text) ?_ ?_
  · intro marks
    obtain ⟨rest, rfl⟩ := List.isPrefixOf_iff_prefix.mp marks
    have settled : Settled heredoc rest (heredoc rest).2 := heredoc_settled sound
    constructor
    · constructor
      · exact Nat.add_le_add_right settled.bound 2
      · intro tail
        have same := settled.same tail
        exact congrArg (fun token : TokenKind × Nat => (token.1, token.2 + 2)) same
    · exact fun tail => rfl
  · intro other
    rw [same, other] at sound
    constructor
    · refine Settled.ite (fun text => startsWith text "?=") (fun _ => (.keyword .echo_, 2))
        (symbol '<') ?_ ?_
      · intro tag
        obtain ⟨rest, rfl⟩ := List.isPrefixOf_iff_prefix.mp tag
        exact ⟨⟨Nat.le_add_left 2 rest.length, fun tail => rfl⟩, fun tail => rfl⟩
      · intro noTag
        rw [noTag] at sound
        refine ⟨symbol_settled sound, fun tail => ?_⟩
        rw [starts_with_cut (by decide), noTag]
        rfl
    · intro tail
      rw [starts_with_cut (by decide), other]
      rfl

theorem paren_settled (sound : (tokenShape '(' text).1.isError = false) :
    Settled (tokenShape '(') text (tokenShape '(' text).2 := by
  have same (text : List Char) : tokenShape '(' text =
      (castLength text).elim (symbol '(' text) fun n => (.cast, n) := by
    have name : startsName '(' = false := by decide
    cases cast : castLength text <;> simp [tokenShape, name, cast]
  cases cast : castLength text with
  | some n =>
    have settled := cast_length_settled cast
    simp only [same, cast, Option.elim_some]
    exact ⟨settled.bound, fun tail => by simp only [same, settled.same tail, cast, Option.elim_some]⟩
  | none =>
    have isSymbol : tokenShape '(' text = symbol '(' text := by rw [same, cast, Option.elim_none]
    rw [isSymbol] at sound ⊢
    have settled := symbol_settled sound
    refine ⟨settled.bound, ?_⟩
    intro tail
    have broken : castLength (cut (symbol '(' text).2 text tail) = none := by
      rw [symbol_paren, cut_zero, cast_length_break]
    rw [same, broken, isSymbol]
    exact settled.same tail

end First

theorem token_shape_settled {first : Char} {text : List Char}
    (sound : (tokenShape first text).1.isError = false) :
    Settled (tokenShape first) text (tokenShape first text).2 := by
  by_cases dollar : first = '$'
  · subst dollar
    exact dollar_settled
  by_cases name : startsName first = true
  · have same : tokenShape first = nameToken first := by
      funext text
      simp [tokenShape, dollar, name]
    rw [same]
    exact name_token_settled first text
  by_cases digit : first.isDigit = true
  · have same : tokenShape first = number first := by
      funext text
      simp [tokenShape, dollar, name, digit]
    rw [same]
    exact number_settled first text
  by_cases point : first = '.'
  · subst point
    exact point_settled sound
  by_cases angle : first = '<'
  · subst angle
    exact angle_settled sound
  by_cases paren : first = '('
  · subst paren
    exact paren_settled sound
  by_cases quote : (first = '\'' || first = '"' || first.toNat = 0x60) = true
  · have same : tokenShape first = quoted first := by
      funext text
      simp [tokenShape, dollar, name, digit, point, quote]
    rw [same] at sound ⊢
    exact quoted_settled sound
  · have same : tokenShape first = symbol first := by
      funext text
      simp [tokenShape, dollar, name, digit, point, quote, angle, paren]
    rw [same] at sound ⊢
    exact symbol_settled sound

def tokenPiece (token : TokenKind × Nat) : Shape :=
  ⟨.token token.1, token.2, token.1 ≠ .closeTag⟩

/-- What starts neither a blank nor a comment is a token. -/
theorem program_shape_token {first : Char} {text other : List Char} {kind : TokenKind}
    (shaped : (programShape first text).kind = .token kind) (sound : kind.isError = false)
    (line : startsWith other "/" = true → startsWith text "/" = true)
    (block : startsWith other "*" = true → startsWith text "*" = true) :
    programShape first other = tokenPiece (tokenShape first other) := by
  unfold programShape at shaped ⊢
  split at shaped
  · cases shaped
  rename_i blank
  split at shaped
  · cases shaped
  rename_i hash
  split at shaped
  · cases shaped
  rename_i noLine
  split at shaped
  · unfold blockComment at shaped
    split at shaped
    · cases shaped
      cases sound
    · split at shaped <;> cases shaped
  rename_i noBlock
  simp only [Bool.and_eq_true, not_and, Bool.not_eq_true] at noLine noBlock
  rw [if_neg blank, if_neg hash, if_neg, if_neg]
  · rfl
  · intro starts
    obtain ⟨slash, starts⟩ := Bool.and_eq_true_iff.mp starts
    rw [block starts] at noBlock
    cases noBlock slash
  · intro starts
    obtain ⟨slash, starts⟩ := Bool.and_eq_true_iff.mp starts
    rw [line starts] at noLine
    cases noLine slash

/-- The close tag alone leads out of the program text. -/
theorem in_program_token {first : Char} {text : List Char} {kind : TokenKind}
    (shaped : (programShape first text).kind = .token kind) (sound : kind.isError = false) :
    (programShape first text).inProgram = decide (kind ≠ .closeTag) := by
  have whole := program_shape_token shaped sound (fun starts => starts) (fun starts => starts)
  rw [whole] at shaped ⊢
  cases shaped
  rfl

theorem program_shape_settled {first : Char} {text : List Char} {kind : TokenKind}
    (shaped : (programShape first text).kind = .token kind) (sound : kind.isError = false) :
    Settled (programShape first) text (programShape first text).extra := by
  have whole := program_shape_token shaped sound (fun starts => starts) (fun starts => starts)
  have isKind : (tokenShape first text).1 = kind := by
    rw [whole] at shaped
    exact PieceKind.token.inj shaped
  have settled : Settled (tokenShape first) text (tokenShape first text).2 :=
    token_shape_settled (by rw [isKind, sound])
  have extra : (programShape first text).extra = (tokenShape first text).2 := by rw [whole]; rfl
  have part {start : String} (solid : '\n' ∉ start.toList) (n : Nat) (tail : List Char)
      (starts : startsWith (cut n text tail) start = true) : startsWith text start = true := by
    rw [starts_with_cut solid] at starts
    exact (Bool.and_eq_true_iff.mp starts).1
  rw [extra]
  constructor
  · exact settled.bound
  · intro tail
    calc
      _ = tokenPiece (tokenShape first (cut (tokenShape first text).2 text tail)) :=
        program_shape_token shaped sound (part (by decide) _ tail) (part (by decide) _ tail)
      _ = tokenPiece (tokenShape first text) := by rw [settled.same tail]
      _ = programShape first text := whole.symm

end Lexeme

namespace Token

def look (t : Token) : TokenKind × String := (t.kind, t.text)

/-- A token on a line of its own, and behind a close tag the open tag that leads back into the
program text. -/
def line (t : Token) : String :=
  t.text ++ "\n" ++ if t.kind = .closeTag then "<?php\n" else ""

end Token

def rendered (tokens : List Token) : String :=
  "<?php\n" ++ String.join (tokens.map Token.line)

def Piece.look? (piece : Piece) : Option (TokenKind × String) :=
  match piece.kind with
  | .trivia _ => none
  | .token kind => some (kind, String.ofList piece.text)

def looks (inProgram : Bool) (text : List Char) : List (TokenKind × String) :=
  (pieces inProgram text).filterMap Piece.look?

theorem assemble_looks (place : Cursor) (waiting : List Trivia) (rest : List Piece) :
    (assemble place waiting rest).map Token.look = rest.filterMap Piece.look? ++ [(.eof, "")] := by
  fun_induction assemble place waiting rest with
  | case1 => rfl
  | case2 place waiting piece rest behind text kind trivia ih =>
    rw [List.filterMap_cons_none, ih]
    simp [Piece.look?, trivia]
  | case3 place waiting piece rest behind text kind token ih =>
    rw [List.filterMap_cons_some, List.map_cons, ih]
    · rfl
    · simp [Piece.look?, token, text, Token.look]

theorem scan_looks (source : String) :
    (scan source).map Token.look = looks false source.toList ++ [(.eof, "")] :=
  assemble_looks _ _ _

theorem scan_open_end (source : String) :
    ∃ last, scan source = scanOpen source ++ [last] ∧ last.kind = .eof ∧ last.text = "" ∧
      ∀ t ∈ scanOpen source, t.kind ≠ .eof := by
  obtain ⟨inner, last, whole, atEnd, empty, inside⟩ := scan_ends source
  have opened : scanOpen source = inner := by
    have ordinary : ∀ t ∈ inner, decide (t.kind ≠ .eof) = true :=
      fun t member => decide_eq_true (inside t member).1
    rw [scanOpen, whole, List.takeWhile_append_of_pos ordinary]
    simp [atEnd]
  rw [opened]
  exact ⟨last, whole, atEnd, empty, fun t member => (inside t member).1⟩

theorem scan_open_looks (source : String) :
    (scanOpen source).map Token.look = looks false source.toList := by
  obtain ⟨last, whole, kind, text, -⟩ := scan_open_end source
  have same := scan_looks source
  rw [whole, List.map_append] at same
  have ending : [last].map Token.look = [(.eof, "")] := by simp [Token.look, kind, text]
  rw [ending] at same
  exact List.append_cancel_right same

@[simp] theorem looks_nil (inProgram : Bool) : looks inProgram [] = [] := by
  simp [looks, pieces]

section Step

variable {inProgram : Bool} {first : Char} {text : List Char} {shape : Shape}

theorem looks_trivia (shaped : Lexeme.shapeOf inProgram first text = shape) {kind : TriviaKind}
    (trivia : shape.kind = .trivia kind) :
    looks inProgram (first :: text) = looks shape.inProgram (text.drop shape.extra) := by
  rw [looks, pieces, List.filterMap_cons_none]
  · rw [shaped, looks]
  · simp [Piece.look?, shaped, trivia]

theorem looks_token (shaped : Lexeme.shapeOf inProgram first text = shape) {kind : TokenKind}
    (token : shape.kind = .token kind) :
    looks inProgram (first :: text) =
      (kind, String.ofList (first :: text.take shape.extra)) ::
        looks shape.inProgram (text.drop shape.extra) := by
  rw [looks, pieces, List.filterMap_cons_some]
  · rw [shaped, looks]
  · simp [Piece.look?, shaped, token]

end Step

theorem looks_drop_blanks (text : List Char) :
    looks true (text.drop (Lexeme.run isBlank text)) = looks true text := by
  cases text with
  | nil => rfl
  | cons c text =>
    by_cases blank : isBlank c = true
    · have shape : Lexeme.shapeOf true c text = .trivia .whitespace (Lexeme.run isBlank text) := by
        simp [Lexeme.shapeOf, Lexeme.programShape, blank]
      have count : Lexeme.run isBlank (c :: text) = Lexeme.run isBlank text + 1 := by
        simp [Lexeme.run, blank]
      rw [looks_trivia shape rfl, count]
      rfl
    · simp [Lexeme.run, blank]

/-- A line break in front of a program text changes nothing. -/
theorem looks_break (text : List Char) : looks true ('\n' :: text) = looks true text :=
  calc
    _ = looks true (('\n' :: text).drop (Lexeme.run isBlank ('\n' :: text))) :=
      (looks_drop_blanks _).symm
    _ = looks true (text.drop (Lexeme.run isBlank text)) := rfl
    _ = looks true text := looks_drop_blanks text

def openLine : List Char := ['<', '?', 'p', 'h', 'p', '\n']

theorem looks_open (text : List Char) : looks false (openLine ++ text) = looks true text := by
  have shape : Lexeme.shapeOf false '<' ('?' :: 'p' :: 'h' :: 'p' :: '\n' :: text) =
      .trivia .openTag 4 := by
    have long : (asciiLower (String.ofList ['p', 'h', 'p']) == "php") = true := by decide
    simp [Lexeme.shapeOf, startsWith, long]
  calc
    _ = looks true ('\n' :: text) := looks_trivia shape rfl
    _ = looks true text := looks_break text

theorem looks_reopen (text : List Char) :
    looks false ('\n' :: (openLine ++ text)) = looks true text := by
  have shape : Lexeme.shapeOf false '\n' (openLine ++ text) = ⟨.trivia .inlineHtml, 0, false⟩ := rfl
  calc
    _ = looks false (openLine ++ text) := looks_trivia shape rfl
    _ = looks true text := looks_open text

theorem shape_of_program (first : Char) (text : List Char) :
    Lexeme.shapeOf true first text = Lexeme.programShape first text :=
  if_pos rfl

/-- A token that is cut off where it ends is read again. -/
theorem looks_cut {first : Char} {text : List Char} {kind : TokenKind}
    (shaped : (Lexeme.programShape first text).kind = .token kind) (sound : kind.isError = false)
    (tail : List Char) :
    looks true (first :: Lexeme.cut (Lexeme.programShape first text).extra text tail) =
      (kind, String.ofList (first :: text.take (Lexeme.programShape first text).extra)) ::
        looks (decide (kind ≠ .closeTag)) ('\n' :: tail) := by
  have settled := Lexeme.program_shape_settled shaped sound
  obtain ⟨n, extent⟩ : ∃ n, (Lexeme.programShape first text).extra = n := ⟨_, rfl⟩
  rw [extent] at settled ⊢
  have same : Lexeme.shapeOf true first (Lexeme.cut n text tail) = Lexeme.programShape first text :=
    (shape_of_program ..).trans (settled.same tail)
  rw [looks_token same shaped, extent, Lexeme.take_cut tail settled.bound,
    Lexeme.drop_cut tail (Nat.le_refl n) settled.bound, Nat.sub_self, Lexeme.cut_zero,
    Lexeme.in_program_token shaped sound]

theorem line_chars (t : Token) :
    t.line.toList =
      t.text.toList ++ '\n' :: if t.kind = .closeTag then openLine else [] := by
  have tag : "<?php\n".toList = openLine := by decide
  have lineBreak : "\n".toList = ['\n'] := by decide
  by_cases close : t.kind = .closeTag <;> simp [Token.line, close, tag, lineBreak]

/-- A token is read again from its line, whatever the lines behind it are. -/
def Token.Recurs (t : Token) : Prop :=
  ∀ tail, looks true (t.line.toList ++ tail) = t.look :: looks true tail

theorem line_recurs {t : Token} {first : Char} {text : List Char}
    (shaped : (Lexeme.programShape first text).kind = .token t.kind)
    (sound : t.kind.isError = false)
    (chars : t.text.toList = first :: text.take (Lexeme.programShape first text).extra) :
    t.Recurs := by
  intro tail
  have read := looks_cut shaped sound
  rw [← chars, String.ofList_toList] at read
  obtain ⟨n, extent⟩ : ∃ n, (Lexeme.programShape first text).extra = n := ⟨_, rfl⟩
  rw [extent] at chars read
  by_cases close : t.kind = .closeTag
  · calc
      _ = looks true (first :: Lexeme.cut n text (openLine ++ tail)) := by
        rw [line_chars, chars, if_pos close, Lexeme.cut]
        simp
      _ = (t.kind, t.text) :: looks false ('\n' :: (openLine ++ tail)) := by
        rw [read, close]
        rfl
      _ = t.look :: looks true tail := by rw [looks_reopen, Token.look]
  · calc
      _ = looks true (first :: Lexeme.cut n text tail) := by
        rw [line_chars, chars, if_neg close, Lexeme.cut]
        simp
      _ = (t.kind, t.text) :: looks true ('\n' :: tail) := by rw [read, decide_eq_true close]
      _ = t.look :: looks true tail := by rw [looks_break, Token.look]

/-- Outside the tags as well a token has the shape that it has in a program text. -/
theorem shape_of_token {inProgram : Bool} {first : Char} {text : List Char} {kind : TokenKind}
    (shaped : (Lexeme.shapeOf inProgram first text).kind = .token kind) :
    Lexeme.shapeOf inProgram first text = Lexeme.programShape first text := by
  unfold Lexeme.shapeOf at shaped ⊢
  split at shaped
  · rw [if_pos ‹_›]
  rename_i outside
  split at shaped
  · rw [if_neg outside, if_pos ‹_›]
  · split at shaped <;> cases shaped

theorem scan_recurs {source : String} {t : Token} (member : t ∈ scan source)
    (notEnd : t.kind ≠ .eof) (sound : t.kind.isError = false) : t.Recurs := by
  rcases mem_assemble member with ⟨atEnd, -⟩ | ⟨piece, listed, kind, text⟩
  · exact absurd atEnd notEnd
  obtain ⟨inProgram, first, rest, shape, chars⟩ := pieces_shaped _ _ piece listed
  have shaped := shape.symm.trans kind
  have same := shape_of_token shaped
  rw [same] at shaped chars
  exact line_recurs shaped sound (by rw [text, String.toList_ofList, chars])

theorem lines_recur {tokens : List Token} (recurs : ∀ t ∈ tokens, t.Recurs) (tail : List Char) :
    looks true ((String.join (tokens.map Token.line)).toList ++ tail) =
      tokens.map Token.look ++ looks true tail := by
  induction tokens with
  | nil => rfl
  | cons t tokens ih =>
    have later := ih fun other member => recurs other (List.mem_cons_of_mem _ member)
    have here := recurs t List.mem_cons_self
    rw [List.map_cons, String.join_cons, String.toList_append, List.append_assoc, here, later]
    rfl

theorem looks_rendered {tokens : List Token} (recurs : ∀ t ∈ tokens, t.Recurs)
    (tail : List Char) :
    looks false ((rendered tokens).toList ++ tail) = tokens.map Token.look ++ looks true tail := by
  have tag : "<?php\n".toList = openLine := by decide
  rw [rendered, String.toList_append, tag, List.append_assoc, looks_open, lines_recur recurs]

/-- The mark of the end adds an empty line. -/
theorem rendered_end {tokens : List Token} {last : Token} (kind : last.kind = .eof)
    (text : last.text = "") :
    (rendered (tokens ++ [last])).toList = (rendered tokens).toList ++ ['\n'] := by
  have line : last.line.toList = ['\n'] := by simp [line_chars, kind, text]
  simp [rendered, line]

/-- A source text without a fault is read as the same kinds and texts again when each of its
tokens is put on a line of its own, with or without the mark of the end. -/
theorem scan_rendered (source : String) (sound : ∀ t ∈ scan source, t.kind.isError = false) :
    (scan (rendered (scan source))).map Token.look = (scan source).map Token.look ∧
      (scanOpen (rendered (scanOpen source))).map Token.look =
        (scanOpen source).map Token.look := by
  obtain ⟨last, whole, atEnd, empty, inner⟩ := scan_open_end source
  have recurs : ∀ t ∈ scanOpen source, t.Recurs := by
    intro t member
    have listed : t ∈ scan source := whole ▸ List.mem_append_left _ member
    exact scan_recurs listed (inner t member) (sound t listed)
  constructor
  · calc
      _ = looks false ((rendered (scanOpen source)).toList ++ ['\n']) ++ [(.eof, "")] := by
        rw [scan_looks, whole, rendered_end atEnd empty]
      _ = (scanOpen source).map Token.look ++ [(.eof, "")] := by
        rw [looks_rendered recurs, looks_break, looks_nil, List.append_nil]
      _ = (scan source).map Token.look := by rw [scan_looks, scan_open_looks]
  · have read := looks_rendered recurs []
    rw [looks_nil, List.append_nil, List.append_nil] at read
    rw [scan_open_looks, read]

/-- Tags inside a line, an echo tag, a cast, nested quotes, a heredoc whose label starts another
word, and numbers that a point or a sign could go on with. -/
def crowded : String :=
  "a<?=( int )$b?>\n<?php echo \"\x7b$a['k']\x7d\".<<<\"T\"\n Tx\n T;0x1F+1.5e-3-.5.e<=>7"

theorem scan_rendered_crowded :
    (∀ t ∈ scan crowded, t.kind.isError = false) ∧
      (scan (rendered (scan crowded))).map Token.look = (scan crowded).map Token.look ∧
      (scanOpen (rendered (scanOpen crowded))).map Token.look =
        (scanOpen crowded).map Token.look := by
  have chars : crowded.toList = _ := String.toList_ofList
  have sound : ∀ t ∈ scan crowded, t.kind.isError = false := by
    rw [scan, chars]
    decide +kernel
  exact ⟨sound, scan_rendered crowded sound⟩

/-- A string without an end takes the line break as well. -/
example : (scan (rendered (scan "<?php 'a"))).map Token.look ≠
    (scan "<?php 'a").map Token.look := by
  decide +kernel

end PhpAnalyser
