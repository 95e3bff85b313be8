import PhpAnalyser.Lexeme.Piece
/-!
The tokens of a source text, which are its pieces with each run of trivia given to the token behind
it, and a place in a list of tokens that ends with the mark of the end.
-/
namespace PhpAnalyser

def Token.atEnd (place : Cursor) (trivia : List Trivia) : Token :=
  ⟨.eof, "", place.spanTo place, trivia⟩

/-- Gathers pieces from `place` on; `waiting` is the trivia that has no token yet. -/
def assemble (place : Cursor) (waiting : List Trivia) : List Piece → List Token
  | [] => [.atEnd place waiting]
  | piece :: rest =>
    let behind := place.past piece.text
    let text := String.ofList piece.text
    match piece.kind with
    | .trivia kind => assemble behind (waiting ++ [⟨kind, text⟩]) rest
    | .token kind => ⟨kind, text, place.spanTo behind, waiting⟩ :: assemble behind [] rest

def scan (source : String) : List Token := assemble .origin [] (pieces false source.toList)

def scanOpen (source : String) : List Token := (scan source).takeWhile (·.kind ≠ .eof)

/-- A token list, closed by the mark of the end, with the place of its current token. -/
structure TokenStream where
  tokens : Array Token
  position : Nat
  position_lt : position < tokens.size
  closed : tokens[tokens.size - 1].kind = .eof

namespace TokenStream

/-- The end of a token list that lacks its mark lies one column behind the last token. -/
def closing (tokens : List Token) : Token :=
  let span := (tokens.getLast?.map (·.span)).getD .origin
  ⟨.eof, "", Span.point span.stop ⟨max span.last.line 1, span.last.column + 1⟩, []⟩

def close (tokens : List Token) : List Token :=
  if tokens.getLast?.any (·.kind = .eof) then tokens else tokens ++ [closing tokens]

theorem close_ne_nil (tokens : List Token) : close tokens ≠ [] := by
  unfold close
  split
  · rename_i ends
    intro empty
    simp [empty] at ends
  · simp

theorem get_last_close (tokens : List Token) :
    ((close tokens).getLast (close_ne_nil tokens)).kind = .eof := by
  by_cases ends : tokens.getLast?.any (·.kind = .eof) = true
  · have same : close tokens = tokens := by simp only [close, ends, if_true]
    have nonempty : tokens ≠ [] := same ▸ close_ne_nil tokens
    rw [List.getLast?_eq_some_getLast nonempty] at ends
    simpa [same] using ends
  · simp [close, ends, closing]

def ofTokens (tokens : List Token) : TokenStream where
  tokens := (close tokens).toArray
  position := 0
  position_lt := by simpa using List.length_pos_iff.mpr (close_ne_nil tokens)
  closed := by
    have ends := get_last_close tokens
    rw [List.getLast_eq_getElem] at ends
    simpa using ends

def ofSource (source : String) : TokenStream := ofTokens (scan source)

def current (s : TokenStream) : Token :=
  have := s.position_lt
  s.tokens[s.position]

def peek (s : TokenStream) (k : Nat) : Token :=
  have := s.position_lt
  s.tokens[min (s.position + k) (s.tokens.size - 1)]

def atEnd (s : TokenStream) : Bool := (s.peek 0).kind = .eof

theorem next_position_lt (s : TokenStream) (more : s.current.kind ≠ .eof) :
    s.position + 1 < s.tokens.size := by
  have bound := s.position_lt
  refine Nat.lt_of_le_of_ne bound fun last => more ?_
  have : s.position = s.tokens.size - 1 := by omega
  simpa [current, this] using s.closed

def next? (s : TokenStream) : Option (Token × TokenStream) :=
  if more : s.current.kind = .eof then none
  else some (s.current, ⟨s.tokens, s.position + 1, s.next_position_lt more, s.closed⟩)

def previous (s : TokenStream) : Option Token :=
  if s.position = 0 then none else s.tokens[s.position - 1]?

/-- Goes to a place, or to the last token when the list has no such place. -/
def moveTo (s : TokenStream) (place : Nat) : TokenStream :=
  have := s.position_lt
  ⟨s.tokens, min place (s.tokens.size - 1), by omega, s.closed⟩

/-- The number of tokens not yet taken, the mark of the end included. -/
def remaining (s : TokenStream) : Nat := s.tokens.size - s.position

end TokenStream

end PhpAnalyser
