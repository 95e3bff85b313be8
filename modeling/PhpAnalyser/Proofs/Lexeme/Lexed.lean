import PhpAnalyser.Grammar.Parser
import PhpAnalyser.Proofs.Lexeme.Tiling
/-!
What readers of syntax may take for granted about the tokens of a source text.
-/
namespace PhpAnalyser

def TokenKind.isOrdinary : TokenKind → Bool
  | closeTag | eof | error _ => false
  | _ => true

def TokenKind.isError : TokenKind → Bool
  | error _ => true
  | _ => false

/-- Tokens in the order of a text: only the last one marks the end, every other one has an
extent and a text, the word that starts an arrow function is never a fault, an identifier is one
segment of a name, and no word has a blank in it. -/
structure Lexed (tokens : Array Token) : Prop where
  ordered : ∀ (i j : Nat) (a b : Token), i < j → tokens[i]? = some a → tokens[j]? = some b →
    a.span.stop ≤ b.span.start
  last : ∀ (i : Nat) (t : Token), tokens[i]? = some t → t.kind = .eof → i + 1 = tokens.size
  start_le : ∀ t ∈ tokens, t.span.start ≤ t.span.stop
  extent : ∀ t ∈ tokens, t.kind ≠ .eof → t.span.start < t.span.stop
  text : ∀ t ∈ tokens, t.kind ≠ .eof → t.text ≠ ""
  arrow : ∀ t ∈ tokens, sameAsciiCase t.text "fn" → t.kind.isOrdinary
  simple : ∀ t ∈ tokens, t.kind = .identifier → '\\' ∉ t.text.toList
  solid : ∀ t ∈ tokens, Parser.isWord t.kind → ' ' ∉ t.text.toList

theorem to_lower_eq_f {c : Char} (h : c.toLower = 'f') : c = 'f' ∨ c = 'F' := by
  unfold Char.toLower at h
  split at h
  · right
    have value := congrArg (fun c : Char => c.val) h
    apply Char.ext
    have : c.val + 32 = 102 := by simpa using value
    have : c.val = 102 - 32 := by rw [← this]; simp
    simpa using this
  · exact .inl h

theorem arrow_shape_word {inProgram : Bool} {first : Char} {rest : List Char} {kind : TokenKind}
    (isF : first = 'f' ∨ first = 'F')
    (shaped : (Lexeme.shapeOf inProgram first rest).kind = .token kind) :
    Parser.isWord kind = true := by
  have shape : (Lexeme.nameToken first rest).1 = kind := by
    cases inProgram with
    | false => rcases isF with rfl | rfl <;> simp [Lexeme.shapeOf] at shaped
    | true =>
      have blank : isBlank first = false := by rcases isF with rfl | rfl <;> decide
      have starts : startsName first = true := by rcases isF with rfl | rfl <;> decide
      rcases isF with rfl | rfl <;>
        simpa [Lexeme.shapeOf, Lexeme.programShape, Lexeme.tokenShape, blank, starts] using shaped
  subst shape
  simp only [Lexeme.nameToken]
  cases Keyword.ofName? (String.ofList (first :: rest.takeWhile continuesName)) <;> rfl

theorem mem_assemble {place : Cursor} {waiting : List Trivia} {rest : List Piece} {t : Token}
    (member : t ∈ assemble place waiting rest) :
    (t.kind = .eof ∧ t.text = "") ∨
      ∃ piece ∈ rest, piece.kind = .token t.kind ∧ t.text = String.ofList piece.text := by
  fun_induction assemble place waiting rest with
  | case1 place waiting =>
    left
    rw [List.mem_singleton.mp member]
    exact ⟨rfl, rfl⟩
  | case2 place waiting piece rest behind text kind _ ih =>
    rcases ih member with atEnd | ⟨other, inside, found⟩
    · exact .inl atEnd
    · exact .inr ⟨other, List.mem_cons_of_mem _ inside, found⟩
  | case3 place waiting piece rest behind text kind isToken ih =>
    rcases List.mem_cons.mp member with rfl | member
    · exact .inr ⟨piece, List.mem_cons_self, isToken, rfl⟩
    · rcases ih member with atEnd | ⟨other, inside, found⟩
      · exact .inl atEnd
      · exact .inr ⟨other, List.mem_cons_of_mem _ inside, found⟩

/-- What is written like the word of an arrow function is a word. -/
theorem scan_arrow_word {source : String} {t : Token} (member : t ∈ scan source)
    (word : sameAsciiCase t.text "fn") : Parser.isWord t.kind = true := by
  have lower : t.text.toList.map Char.toLower = ['f', 'n'] := by
    have same : asciiLower t.text = asciiLower "fn" := by simpa [sameAsciiCase] using word
    simpa [asciiLower] using congrArg String.toList same
  rcases mem_assemble member with ⟨-, empty⟩ | ⟨piece, inside, kind, text⟩
  · simp [empty] at lower
  · obtain ⟨inProgram, first, rest, shape, chars⟩ := pieces_shaped _ _ piece inside
    rw [text, String.toList_ofList, chars, List.map_cons, List.cons.injEq] at lower
    exact arrow_shape_word (to_lower_eq_f lower.1) (shape.symm.trans kind)

theorem scan_arrow {source : String} {t : Token} (member : t ∈ scan source)
    (word : sameAsciiCase t.text "fn") : t.kind.isOrdinary := by
  have named := scan_arrow_word member word
  cases kind : t.kind <;> first | rfl | (rw [kind] at named; cases named)

theorem continues_name_of_mem {first c : Char} {rest : List Char} (starts : startsName first)
    (member : c ∈ first :: rest.takeWhile continuesName) : continuesName c := by
  rcases List.mem_cons.mp member with rfl | member
  · simp [continuesName, starts]
  · exact List.all_eq_true.mp List.all_takeWhile c member

/-- A word of a text has the characters of a name, unless it is the short echo tag. -/
theorem scan_word {source : String} {t : Token} (member : t ∈ scan source)
    (word : Parser.isWord t.kind = true) :
    (∀ c ∈ t.text.toList, continuesName c = true) ∨
      t.kind = .keyword .echo_ ∧ t.text.toList = "<?=".toList := by
  rcases mem_assemble member with ⟨atEnd, -⟩ | ⟨piece, listed, kind, text⟩
  · rw [atEnd] at word
    cases word
  obtain ⟨inProgram, first, rest, shape, chars⟩ := pieces_shaped _ _ piece listed
  rw [text, String.toList_ofList, chars]
  rcases shape_of_cases inProgram first rest with
    nameless | ⟨starts, -, extra⟩ | ⟨⟨sign, ahead⟩, echo, extra⟩
  · have named := nameless _ (shape.symm.trans kind)
    cases is : t.kind <;> simp [is, Parser.isWord, TokenKind.isNameless] at word named
  · left
    have name : rest.take (Lexeme.nameToken first rest).2 = rest.takeWhile continuesName :=
      (List.prefix_iff_eq_take.mp (List.takeWhile_prefix _)).symm
    rw [extra, name]
    exact fun c inside => continues_name_of_mem starts inside
  · right
    have tag : rest.take 2 = ['?', '='] :=
      (List.prefix_iff_eq_take.mp (List.isPrefixOf_iff_prefix.mp ahead)).symm
    refine ⟨PieceKind.token.inj (kind.symm.trans (shape.trans echo)), ?_⟩
    rw [extra, tag, sign]
    rfl

theorem scan_identifier {source : String} {t : Token} (member : t ∈ scan source)
    (identifier : t.kind = .identifier) : '\\' ∉ t.text.toList := by
  intro inside
  rcases scan_word member (by rw [identifier]; rfl) with named | ⟨echo, -⟩
  · exact absurd (named _ inside) (by decide)
  · rw [identifier] at echo
    cases echo

theorem scan_solid {source : String} {t : Token} (member : t ∈ scan source)
    (word : Parser.isWord t.kind = true) : ' ' ∉ t.text.toList := by
  intro inside
  rcases scan_word member word with named | ⟨-, echo⟩
  · exact absurd (named _ inside) (by decide)
  · rw [echo] at inside
    revert inside
    decide

theorem scan_text {source : String} {t : Token} (member : t ∈ scan source)
    (notEnd : t.kind ≠ .eof) : t.text ≠ "" := by
  obtain ⟨inner, last, same, atEnd, -, inside⟩ := scan_ends source
  rw [same, List.mem_append, List.mem_singleton] at member
  rcases member with member | rfl
  · exact (inside t member).2
  · exact absurd atEnd notEnd

theorem lexed_scan (source : String) : Lexed (scan source).toArray where
  ordered i j a b lt first second := by
    rw [List.getElem?_toArray, List.getElem?_eq_some_iff] at first second
    obtain ⟨hi, rfl⟩ := first
    obtain ⟨hj, rfl⟩ := second
    exact List.pairwise_iff_getElem.mp (scan_ordered source) i j hi hj lt
  last i t found isEnd := by
    obtain ⟨inner, last, same, -, -, inside⟩ := scan_ends source
    rw [List.getElem?_toArray, same] at found
    by_cases low : i < inner.length
    · rw [List.getElem?_append_left low] at found
      exact absurd isEnd (inside t (List.mem_of_getElem? found)).1
    · have bound := (List.getElem?_eq_some_iff.mp found).1
      simp only [List.length_append, List.length_singleton] at bound
      simp only [List.size_toArray, same, List.length_append, List.length_singleton]
      omega
  start_le t member :=
    ((tiled_ordered (tiled_scan source)).1 t (by simpa using member)).2
  extent t member notEnd := by
    have here : t ∈ scan source := by simpa using member
    obtain ⟨before, after, cut⟩ := List.append_of_mem here
    have place := scan_in_place cut
    have nonempty := scan_text here notEnd
    have size : t.text.utf8ByteSize ≠ 0 :=
      fun zero => nonempty (String.utf8ByteSize_eq_zero_iff.mp zero)
    rw [place.start_eq, place.stop_eq, String.utf8ByteSize_append (t := t.text)]
    omega
  text t member notEnd := scan_text (by simpa using member) notEnd
  arrow t member word := scan_arrow (by simpa using member) word
  simple t member identifier := scan_identifier (by simpa using member) identifier
  solid t member word := scan_solid (by simpa using member) word

theorem close_scan (source : String) : TokenStream.close (scan source) = scan source := by
  obtain ⟨inner, last, same, atEnd, -⟩ := scan_ends source
  unfold TokenStream.close
  rw [if_pos]
  simp [same, atEnd]

theorem tokens_of_source (source : String) :
    (TokenStream.ofSource source).tokens = (scan source).toArray :=
  congrArg List.toArray (close_scan source)

end PhpAnalyser
