import Mathlib.Data.List.Induction
import PhpAnalyser.Proofs.Lexeme.Tiling
/-!
Lines and columns are kept character by character while a text is read. They are the ones that
counting from the start of the text gives.
-/
namespace PhpAnalyser

theorem Position.behind_snoc (text : List Char) (c : Char) :
    Position.behind (text ++ [c]) =
      if c = '\n' then ⟨(behind text).line + 1, 1⟩
      else ⟨(behind text).line, (behind text).column + 1⟩ := by
  by_cases lineBreak : c = '\n'
  · simp [behind, lineBreak]
  · simp [behind, lineBreak, List.count_append]

namespace Cursor

/-- Reading a text leads to the place behind it. -/
theorem next_past (text : List Char) : (origin.past text).next = .behind text := by
  induction text using List.reverseRecOn with
  | nil => rfl
  | append_singleton text c ih =>
    have step : (origin.past (text ++ [c])).next = ((origin.past text).step c).next := by
      rw [past_append]
      rfl
    rw [step, Position.behind_snoc, ← ih]
    rfl

/-- The last character read stands where the text in front of it ends. -/
theorem last_past (p : Cursor) (text : List Char) (c : Char) :
    (p.past (text ++ [c])).last = (p.past text).next := by
  rw [past_append]
  rfl

end Cursor

def charsBefore : List Char → Nat → List Char
  | [], _ => []
  | c :: text, offset => if offset = 0 then [] else c :: charsBefore text (offset - c.utf8Size)

theorem chars_before_size (before after : List Char) :
    charsBefore (before ++ after) (String.ofList before).utf8ByteSize = before := by
  induction before with
  | nil => cases after <;> simp [charsBefore]
  | cons c before ih =>
    have behind : c.utf8Size + (String.ofList before).utf8ByteSize ≠ 0 := by
      have := c.utf8Size_pos
      omega
    rw [List.cons_append, charsBefore, size_cons, if_neg behind, Nat.add_sub_cancel_left, ih]

/-- The positions of `t` are counted in `source`: that of its start, and that of its last character
or, where it has none, of its start again. -/
structure Token.Counted (source : List Char) (t : Token) : Prop where
  first_eq : t.span.first = .behind (charsBefore source t.span.start)
  last_eq : t.text ≠ "" →
    t.span.last = .behind (charsBefore source t.span.start ++ t.text.toList.dropLast)
  end_eq : t.kind = .eof → t.span.last = t.span.first

theorem at_end_counted (before : List Char) (waiting : List Trivia) :
    (Token.atEnd (Cursor.origin.past before) waiting).Counted before where
  first_eq := by
    have start : charsBefore before (Cursor.origin.past before).offset = before := by
      simpa [offset_past, Cursor.origin] using chars_before_size before []
    simp [Token.atEnd, Cursor.spanTo, Span.point, start, Cursor.next_past]
  last_eq nonempty := absurd rfl nonempty
  end_eq _ := by simp [Token.atEnd, Cursor.spanTo, Span.point]

theorem token_counted (before after : List Char) (piece : Piece) (kind : TokenKind)
    (waiting : List Trivia) (nonempty : piece.text ≠ []) (notEnd : kind ≠ .eof) :
    Token.Counted (before ++ piece.text ++ after)
      ⟨kind, String.ofList piece.text,
        (Cursor.origin.past before).spanTo ((Cursor.origin.past before).past piece.text),
        waiting⟩ := by
  have cut := List.dropLast_concat_getLast nonempty
  have start : charsBefore (before ++ piece.text ++ after) (Cursor.origin.past before).offset =
      before := by
    simpa [offset_past, Cursor.origin] using chars_before_size before (piece.text ++ after)
  have later : ((Cursor.origin.past before).past piece.text).offset ≠
      (Cursor.origin.past before).offset := by
    have size : (String.ofList piece.text).utf8ByteSize ≠ 0 := by
      simpa [String.utf8ByteSize_eq_zero_iff] using nonempty
    rw [offset_past _ piece.text]
    omega
  constructor
  · simp only [Cursor.spanTo, if_neg later, start, Cursor.next_past]
  · intro _
    simp only [Cursor.spanTo, if_neg later, start, String.toList_ofList]
    rw [← cut, List.dropLast_concat, Cursor.last_past, ← Cursor.past_append, Cursor.next_past]
  · intro isEnd
    exact absurd isEnd notEnd

/-- The tokens gathered behind `before` are counted from the start of the whole text. -/
theorem assemble_counted (before : List Char) (waiting : List Trivia) (rest : List Piece)
    (proper : ∀ piece ∈ rest, piece.text ≠ [] ∧ piece.kind ≠ .token .eof) :
    ∀ t ∈ assemble (Cursor.origin.past before) waiting rest,
      t.Counted (before ++ rest.flatMap (·.text)) := by
  induction rest generalizing before waiting with
  | nil =>
    intro t member
    rw [assemble, List.mem_singleton] at member
    subst member
    simpa using at_end_counted before waiting
  | cons piece rest ih =>
    obtain ⟨nonempty, notEnd⟩ := proper piece List.mem_cons_self
    have inner : ∀ piece ∈ rest, piece.text ≠ [] ∧ piece.kind ≠ .token .eof :=
      fun piece member => proper piece (List.mem_cons_of_mem _ member)
    have later (waiting : List Trivia) := ih (before ++ piece.text) waiting inner
    simp only [Cursor.past_append, List.append_assoc] at later
    cases kind : piece.kind with
    | trivia trivia =>
      intro t member
      rw [assemble, kind] at member
      exact later _ t member
    | token token =>
      intro t member
      rw [assemble, kind] at member
      rcases List.mem_cons.mp member with rfl | member
      · have isToken : token ≠ .eof := fun same => notEnd (by rw [kind, same])
        rw [List.flatMap_cons, ← List.append_assoc]
        exact token_counted before _ piece token waiting nonempty isToken
      · exact later _ t member

/-- Each token starts and ends where counting lines and columns from the start of the text says. -/
theorem scan_counted (source : String) :
    ∀ t ∈ scan source, t.Counted source.toList := by
  have counted := assemble_counted [] [] _ (pieces_proper false source.toList)
  rwa [flat_map_pieces, List.nil_append] at counted

def twoLines : String := "<?php\n$é = 'a\néb' ;"

theorem scan_counted_two_lines : ∃ t ∈ scan twoLines, t.Counted twoLines.toList ∧
    t.text = "'a\néb'" ∧ t.span = ⟨12, 19, ⟨2, 6⟩, ⟨3, 3⟩⟩ := by
  have shows : (scan twoLines).any
      (fun t => t.text = "'a\néb'" ∧ t.span = ⟨12, 19, ⟨2, 6⟩, ⟨3, 3⟩⟩) = true := by
    decide +kernel
  obtain ⟨t, member, shown⟩ := List.any_eq_true.mp shows
  exact ⟨t, member, scan_counted twoLines t member, of_decide_eq_true shown⟩

end PhpAnalyser
