import PhpAnalyser.Lexeme.Stream
import Mathlib.Data.List.Pairwise
/-!
Reading a text into tokens loses nothing: the tokens with the trivia in front of them, put one
behind the other, are the text, and the span of a token is the place of its text in it.
-/
namespace PhpAnalyser

namespace Token

def lead (t : Token) : String := String.join (t.trivia.map (·.text))

def written (t : Token) : String := t.lead ++ t.text

end Token

def writtenText (tokens : List Token) : String := String.join (tokens.map Token.written)

@[simp] theorem written_text_nil : writtenText [] = "" := String.join_nil

@[simp] theorem written_text_cons (t : Token) (tokens : List Token) :
    writtenText (t :: tokens) = t.written ++ writtenText tokens := String.join_cons

@[simp] theorem written_text_append (first second : List Token) :
    writtenText (first ++ second) = writtenText first ++ writtenText second := by
  simp [writtenText]

/-- The span of `t` is the place of its text in `source`, between the characters of `source`. -/
structure Token.InPlace (source : String) (t : Token) (before : List Token) : Prop where
  start_eq : t.span.start = (writtenText before ++ t.lead).utf8ByteSize
  stop_eq : t.span.stop = (writtenText before ++ t.lead ++ t.text).utf8ByteSize
  start_valid : (⟨t.span.start⟩ : String.Pos.Raw).IsValid source
  stop_valid : (⟨t.span.stop⟩ : String.Pos.Raw).IsValid source

def TokenKind.isNameless : TokenKind → Bool
  | identifier | keyword _ | eof => false
  | _ => true

theorem symbols_nameless : ∀ entry ∈ Lexeme.symbols, entry.2.isNameless := by decide

theorem symbol_nameless (first : Char) (text : List Char) :
    (Lexeme.symbol first text).1.isNameless := by
  unfold Lexeme.symbol
  split
  · rename_i spelling kind found
    exact symbols_nameless _ (List.mem_of_find?_eq_some found)
  · rfl

theorem name_token_ne_eof (first : Char) (text : List Char) :
    (Lexeme.nameToken first text).1 ≠ .eof := by
  simp only [Lexeme.nameToken]
  cases Keyword.ofName? (String.ofList (first :: text.takeWhile continuesName)) <;> simp

theorem decimal_nameless (whole : Nat) (text : List Char) :
    (Lexeme.decimal whole text).1.isNameless := by
  simp only [Lexeme.decimal]
  split <;> rfl

theorem number_nameless (first : Char) (text : List Char) :
    (Lexeme.number first text).1.isNameless := by
  unfold Lexeme.number
  split <;> first | exact decimal_nameless _ _ | rfl

theorem quoted_nameless (quote : Char) (text : List Char) :
    (Lexeme.quoted quote text).1.isNameless := by
  unfold Lexeme.quoted
  split <;> rfl

theorem heredoc_nameless (text : List Char) : (Lexeme.heredoc text).1.isNameless := by
  unfold Lexeme.heredoc
  dsimp only
  repeat' split
  all_goals rfl

def IsShortEcho (first : Char) (text : List Char) : Prop :=
  first = '<' ∧ startsWith text "?=" = true

theorem token_shape_cases (first : Char) (text : List Char) :
    (Lexeme.tokenShape first text).1.isNameless ∨
      startsName first ∧ Lexeme.tokenShape first text = Lexeme.nameToken first text ∨
      IsShortEcho first text ∧ Lexeme.tokenShape first text = (.keyword .echo_, 2) := by
  unfold Lexeme.tokenShape
  split
  · split <;> exact .inl rfl
  split
  · exact .inr (.inl ⟨by assumption, rfl⟩)
  split
  · exact .inl (number_nameless first text)
  split
  · exact .inl rfl
  split
  · exact .inl (quoted_nameless first text)
  split
  · exact .inl (heredoc_nameless (text.drop 2))
  split
  next echo =>
    rw [Bool.and_eq_true, decide_eq_true_eq] at echo
    exact .inr (.inr ⟨echo, rfl⟩)
  left
  split
  · split
    · rfl
    · exact symbol_nameless first text
  · exact symbol_nameless first text

def Shape.IsName (shape : Shape) (first : Char) (text : List Char) : Prop :=
  startsName first ∧ shape.kind = .token (Lexeme.nameToken first text).1 ∧
    shape.extra = (Lexeme.nameToken first text).2

def Shape.IsEcho (shape : Shape) (first : Char) (text : List Char) : Prop :=
  IsShortEcho first text ∧ shape.kind = .token (.keyword .echo_) ∧ shape.extra = 2

theorem program_shape_cases (first : Char) (text : List Char) :
    (∀ kind, (Lexeme.programShape first text).kind = .token kind → kind.isNameless) ∨
      (Lexeme.programShape first text).IsName first text ∨
      (Lexeme.programShape first text).IsEcho first text := by
  unfold Lexeme.programShape
  split
  · simp [Shape.trivia]
  split
  · simp [Shape.trivia]
  split
  · simp [Shape.trivia]
  split
  · unfold Lexeme.blockComment
    split
    · simp [Shape.token, TokenKind.isNameless]
    · split <;> simp [Shape.trivia]
  · rcases token_shape_cases first text with nameless | ⟨starts, same⟩ | ⟨echo, same⟩
    · left
      rintro kind same
      cases same
      exact nameless
    · rw [same]
      exact .inr (.inl ⟨starts, rfl, rfl⟩)
    · rw [same]
      exact .inr (.inr ⟨echo, rfl, rfl⟩)

/-- A piece that is a token is a name or the short echo tag, or it is no word. -/
theorem shape_of_cases (inProgram : Bool) (first : Char) (text : List Char) :
    (∀ kind, (Lexeme.shapeOf inProgram first text).kind = .token kind → kind.isNameless) ∨
      (Lexeme.shapeOf inProgram first text).IsName first text ∨
      (Lexeme.shapeOf inProgram first text).IsEcho first text := by
  unfold Lexeme.shapeOf
  split
  · exact program_shape_cases first text
  split
  · exact program_shape_cases first text
  split <;> simp [Shape.trivia]

theorem shape_of_ne_eof (inProgram : Bool) (first : Char) (text : List Char) :
    (Lexeme.shapeOf inProgram first text).kind ≠ .token .eof := by
  intro isEnd
  rcases shape_of_cases inProgram first text with nameless | ⟨-, kind, -⟩ | ⟨-, kind, -⟩
  · exact absurd (nameless _ isEnd) (by decide)
  · exact name_token_ne_eof first text (PieceKind.token.inj (kind.symm.trans isEnd))
  · cases kind.symm.trans isEnd

/-- Every piece is cut off by the shape of what starts with its first character. -/
theorem pieces_shaped (inProgram : Bool) (text : List Char) :
    ∀ piece ∈ pieces inProgram text, ∃ inside first rest,
      piece.kind = (Lexeme.shapeOf inside first rest).kind ∧
        piece.text = first :: rest.take (Lexeme.shapeOf inside first rest).extra := by
  fun_induction pieces inProgram text with
  | case1 => simp
  | case2 inProgram first text shape ih =>
    intro piece member
    rcases List.mem_cons.mp member with rfl | member
    · exact ⟨inProgram, first, text, rfl, rfl⟩
    · exact ih piece member

/-- Every piece holds a character, and none of them is the mark of the end. -/
theorem pieces_proper (inProgram : Bool) (text : List Char) :
    ∀ piece ∈ pieces inProgram text, piece.text ≠ [] ∧ piece.kind ≠ .token .eof := by
  intro piece member
  obtain ⟨inside, first, rest, kind, chars⟩ := pieces_shaped inProgram text piece member
  constructor
  · simp [chars]
  · rw [kind]
    exact shape_of_ne_eof inside first rest

theorem size_cons (c : Char) (text : List Char) :
    (String.ofList (c :: text)).utf8ByteSize =
      c.utf8Size + (String.ofList text).utf8ByteSize := by
  rw [← List.singleton_append, String.ofList_append, String.utf8ByteSize_append]
  simp

theorem offset_past (place : Cursor) (text : List Char) :
    (place.past text).offset = place.offset + (String.ofList text).utf8ByteSize := by
  induction text generalizing place with
  | nil => rfl
  | cons c text ih =>
    have step : (place.past (c :: text)).offset = ((place.step c).past text).offset := rfl
    rw [step, ih, size_cons]
    exact Nat.add_assoc ..

theorem start_span_to (p q : Cursor) : (p.spanTo q).start = p.offset := by
  unfold Cursor.spanTo
  split <;> rfl

theorem stop_span_to (p q : Cursor) : (p.spanTo q).stop = q.offset := by
  unfold Cursor.spanTo
  split
  · rename_i same
    exact same.symm
  · rfl

/-- Each token starts behind its trivia, which starts where the token before it ends. -/
def Tiled : Nat → List Token → Prop
  | _, [] => True
  | offset, t :: rest =>
    t.span.start = offset + t.lead.utf8ByteSize ∧
      t.span.stop = t.span.start + t.text.utf8ByteSize ∧ Tiled t.span.stop rest

section Assemble

variable (place : Cursor) (waiting : List Trivia) (rest : List Piece)

theorem written_text_assemble :
    writtenText (assemble place waiting rest)
      = String.join (waiting.map (·.text)) ++ String.ofList (rest.flatMap (·.text)) := by
  fun_induction assemble place waiting rest with
  | case1 place waiting => simp [Token.atEnd, Token.written, Token.lead]
  | case2 place waiting piece rest behind text kind _ ih =>
    rw [ih]
    simp [text, String.append_assoc, String.ofList_append]
  | case3 place waiting piece rest behind text kind _ ih =>
    rw [written_text_cons, ih]
    simp [text, Token.written, Token.lead, String.append_assoc, String.ofList_append]

theorem tiled_assemble (offset : Nat)
    (waits : place.offset = offset + (String.join (waiting.map (·.text))).utf8ByteSize) :
    Tiled offset (assemble place waiting rest) := by
  fun_induction assemble place waiting rest generalizing offset with
  | case1 place waiting =>
    refine ⟨?_, ?_, trivial⟩
    · simpa [Token.atEnd, Token.lead, start_span_to] using waits
    · simp [Token.atEnd, start_span_to, stop_span_to]
  | case2 place waiting piece rest behind text kind _ ih =>
    apply ih
    simp only [behind, text, offset_past, waits, List.map_append, String.join_append]
    simp [Nat.add_assoc]
  | case3 place waiting piece rest behind text kind _ ih =>
    refine ⟨?_, ?_, ?_⟩
    · simpa [Token.lead, start_span_to] using waits
    · simp [start_span_to, stop_span_to, behind, text, offset_past]
    · apply ih
      simp [stop_span_to]

/-- The last token is the only mark of the end, and every other one has a text. -/
theorem assemble_ends (proper : ∀ piece ∈ rest, piece.text ≠ [] ∧ piece.kind ≠ .token .eof) :
    ∃ inner last, assemble place waiting rest = inner ++ [last] ∧ last.kind = .eof ∧
      last.text = "" ∧ ∀ t ∈ inner, t.kind ≠ .eof ∧ t.text ≠ "" := by
  fun_induction assemble place waiting rest with
  | case1 place waiting => exact ⟨[], .atEnd place waiting, rfl, rfl, rfl, by simp⟩
  | case2 place waiting piece rest behind text kind _ ih =>
    exact ih fun piece member => proper piece (List.mem_cons_of_mem _ member)
  | case3 place waiting piece rest behind text kind isToken ih =>
    obtain ⟨inner, last, same, atEnd, empty, inside⟩ :=
      ih fun piece member => proper piece (List.mem_cons_of_mem _ member)
    obtain ⟨nonempty, notEnd⟩ := proper piece List.mem_cons_self
    refine ⟨_ :: inner, last, by rw [same]; rfl, atEnd, empty, ?_⟩
    intro t member
    rcases List.mem_cons.mp member with rfl | member
    · refine ⟨fun isEnd => notEnd ?_, ?_⟩
      · rw [isToken]
        exact congrArg _ isEnd
      · simpa [text] using nonempty
    · exact inside t member

end Assemble

theorem tiled_in_place {offset : Nat} {before tokens after : List Token} {t : Token}
    (tiled : Tiled offset tokens) (same : tokens = before ++ t :: after) :
    t.span.start = offset + (writtenText before ++ t.lead).utf8ByteSize ∧
      t.span.stop = offset + (writtenText before ++ t.lead ++ t.text).utf8ByteSize := by
  induction before generalizing offset tokens with
  | nil =>
    subst same
    obtain ⟨start, stop, -⟩ := tiled
    constructor
    · simpa using start
    · simp only [stop, start, written_text_nil, String.empty_append, String.utf8ByteSize_append]
      omega
  | cons first before ih =>
    subst same
    obtain ⟨start, stop, inner⟩ := tiled
    have rest := ih inner rfl
    simp only [stop, start] at rest
    simp only [written_text_cons, Token.written, String.utf8ByteSize_append] at rest ⊢
    omega

theorem tiled_ordered {offset : Nat} {tokens : List Token} (tiled : Tiled offset tokens) :
    (∀ t ∈ tokens, offset ≤ t.span.start ∧ t.span.start ≤ t.span.stop) ∧
      tokens.Pairwise fun a b => a.span.stop ≤ b.span.start := by
  induction tokens generalizing offset with
  | nil => simp
  | cons first rest ih =>
    obtain ⟨start, stop, inner⟩ := tiled
    obtain ⟨bounds, ordered⟩ := ih inner
    refine ⟨?_, List.pairwise_cons.mpr ⟨fun t member => (bounds t member).1, ordered⟩⟩
    intro t member
    rcases List.mem_cons.mp member with rfl | member
    · omega
    · have := bounds t member
      omega

theorem tiled_scan (source : String) : Tiled 0 (scan source) :=
  tiled_assemble _ _ _ 0 (by simp [Cursor.origin])

theorem written_text_scan (source : String) : writtenText (scan source) = source := by
  unfold scan
  rw [written_text_assemble, flat_map_pieces]
  simp

theorem scan_ordered (source : String) :
    (scan source).Pairwise fun a b => a.span.stop ≤ b.span.start :=
  (tiled_ordered (tiled_scan source)).2

theorem scan_in_place {source : String} {before after : List Token} {t : Token}
    (same : scan source = before ++ t :: after) : t.InPlace source before := by
  obtain ⟨start, stop⟩ := tiled_in_place (tiled_scan source) same
  have whole : source = writtenText before ++ t.lead ++ t.text ++ writtenText after := by
    rw [← written_text_scan source, same]
    simp [Token.written, String.append_assoc]
  simp only [Nat.zero_add] at start stop
  refine ⟨start, stop, ?_, ?_⟩
  · refine String.Pos.Raw.isValid_iff_exists_append.mpr
      ⟨writtenText before ++ t.lead, t.text ++ writtenText after, ?_, ?_⟩
    · rw [← String.append_assoc]
      exact whole
    · rw [start]
      rfl
  · refine String.Pos.Raw.isValid_iff_exists_append.mpr
      ⟨writtenText before ++ t.lead ++ t.text, writtenText after, whole, ?_⟩
    rw [stop]
    rfl

theorem scan_ends (source : String) :
    ∃ inner last, scan source = inner ++ [last] ∧ last.kind = .eof ∧
      last.text = "" ∧ ∀ t ∈ inner, t.kind ≠ .eof ∧ t.text ≠ "" :=
  assemble_ends _ _ _ (pieces_proper false source.toList)

/-- The tokens of a text and their trivia are the text, cut without loss: only the last token
marks the end, every other one has a text, and each span is where its text stands. -/
theorem scan_lossless (source : String) :
    writtenText (scan source) = source ∧
      (∃ last, scan source = scanOpen source ++ [last] ∧ last.kind = .eof ∧ last.text = "") ∧
      (∀ t ∈ scanOpen source, t.kind ≠ .eof ∧ t.text ≠ "") ∧
      (∀ before t after, scan source = before ++ t :: after → t.InPlace source before) ∧
      (scan source).Pairwise (fun a b => a.span.stop ≤ b.span.start) := by
  obtain ⟨inner, last, same, atEnd, empty, inside⟩ := scan_ends source
  have isOpen : scanOpen source = inner := by
    rw [scanOpen, same, List.takeWhile_append_of_pos fun t member => ?_]
    · simp [atEnd]
    · exact decide_eq_true (inside t member).1
  refine ⟨written_text_scan source, ⟨last, ?_, atEnd, empty⟩, ?_, ?_, scan_ordered source⟩
  · rw [isOpen, same]
  · rwa [isOpen]
  · intro before t after here
    exact scan_in_place here

end PhpAnalyser
