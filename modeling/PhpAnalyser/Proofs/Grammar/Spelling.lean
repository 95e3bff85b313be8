import PhpAnalyser.Proofs.Grammar.Primitive
/-!
The tokens that a construct takes, and the chain of variables that they spell.
-/
namespace PhpAnalyser

def taken (s s' : ParserState) : List Token :=
  (s.tokens.toList.drop s.place).take (s'.place - s.place)

section Taken

variable {s s' s'' : ParserState}

theorem mem_taken {t : Token} :
    t ∈ taken s s' ↔ ∃ k, s.place ≤ k ∧ k < s'.place ∧ s.tokens[k]? = some t := by
  simp only [List.mem_iff_getElem?, taken, List.getElem?_take, List.getElem?_drop,
    Array.getElem?_toList]
  constructor
  · rintro ⟨k, found⟩
    split at found
    · exact ⟨s.place + k, by omega, by omega, found⟩
    · cases found
  · rintro ⟨k, le, lt, found⟩
    refine ⟨k - s.place, ?_⟩
    have place : s.place + (k - s.place) = k := by omega
    rw [if_pos (by omega), place]
    exact found

theorem taken_of_place (same : s''.place = s'.place) : taken s s'' = taken s s' := by
  rw [taken, taken, same]

theorem taken_trans (first : Onward s s') (second : Onward s' s'') :
    taken s s'' = taken s s' ++ taken s' s'' := by
  have le := first.place_le
  have le' := second.place_le
  have length : s''.place - s.place = (s'.place - s.place) + (s''.place - s'.place) := by omega
  have place : s.place + (s'.place - s.place) = s'.place := by omega
  rw [taken, taken, taken, length, List.take_add, List.drop_drop, first.tokens, place]

theorem taken_one (place : s'.place = s.place + 1) : taken s s' = [s.token] := by
  have low : s.place < s.tokens.toList.length := s.place_lt
  have here : s.tokens.toList[s.place] = s.token := rfl
  have length : s.place + 1 - s.place = 1 := by omega
  rw [taken, place, List.drop_eq_getElem_cons low, length, here]
  rfl

theorem head_taken (lt : s.place < s'.place) : (taken s s').head? = some s.token := by
  rw [taken, List.head?_take, if_neg (by omega), List.head?_drop, Array.getElem?_toList]
  exact s.token_at

end Taken

/-- A flat chain falls apart at an operator; a question mark and a colon that make one operator
stay together. -/
theorem flat_of_append {u v : List Word} {j : Word} (joint : ∀ x, j ≠ .name x)
    (opens : j = .question → v.head? ≠ some .colon)
    (closes : j = .colon → u.getLast? ≠ some .question) (flat : isFlat (u ++ j :: v)) :
    isFlat u ∧ isFlat v := by
  fun_induction isFlat u with
  | case1 name =>
    refine ⟨rfl, ?_⟩
    cases j with
    | name x => exact absurd rfl (joint x)
    | question =>
      cases v with
      | nil => simp [isFlat] at flat
      | cons first rest =>
        have : first ≠ .colon := by simpa using opens rfl
        cases first <;> simp_all [isFlat]
    | _ => simpa [isFlat] using flat
  | case2 name rest ih =>
    refine ih (fun isColon last => closes isColon ?_) (by simpa [isFlat] using flat)
    cases rest with
    | nil => cases last
    | cons first rest => simpa using last
  | case3 a b rest => simp [isFlat] at flat
  | case4 name joint' rest notElvis notName ih =>
    have inner : isFlat (rest ++ j :: v) := by
      cases joint' with
      | name x => exact (notName x rfl).elim
      | question =>
        cases rest with
        | nil =>
          have : j ≠ .colon := fun isColon => closes isColon rfl
          cases j <;> simp_all [isFlat]
        | cons first rest =>
          have : first ≠ .colon := fun isColon => notElvis rest rfl (by rw [isColon])
          cases first <;> simp_all [isFlat]
      | _ => simpa [isFlat] using flat
    refine ih (fun isColon last => closes isColon ?_) inner
    cases rest with
    | nil => cases last
    | cons first rest => simpa using last
  | case5 u _ _ _ noName =>
    cases u with
    | nil => cases j <;> simp_all [isFlat]
    | cons a u =>
      cases a with
      | name x => cases u <;> simp_all
      | _ => simp [isFlat] at flat

/-- A flat chain falls apart at the operator of a question mark and a colon. -/
theorem flat_of_append_default {u v : List Word} (flat : isFlat (u ++ .question :: .colon :: v)) :
    isFlat u ∧ isFlat v := by
  fun_induction isFlat u with
  | case1 name => exact ⟨rfl, by simpa [isFlat] using flat⟩
  | case2 name rest ih => exact ih (by simpa [isFlat] using flat)
  | case3 a b rest => simp [isFlat] at flat
  | case4 name joint rest notElvis notName ih =>
    refine ih ?_
    cases joint with
    | name x => exact (notName x rfl).elim
    | question =>
      cases rest with
      | nil => simp [isFlat] at flat
      | cons first rest =>
        have : first ≠ .colon := fun isColon => notElvis rest rfl (by rw [isColon])
        cases first <;> simp_all [isFlat]
    | _ => simpa [isFlat] using flat
  | case5 u _ _ _ noName =>
    cases u with
    | nil => simp [isFlat] at flat
    | cons a u =>
      cases a with
      | name x => cases u <;> simp_all
      | _ => simp [isFlat] at flat

def Token.isForeign (t : Token) : Bool := t.word?.isNone && !t.kind.isStatementEnd

theorem Token.kind_of_colon {t : Token} (word : t.word? = some .colon) : t.kind = .colon := by
  unfold word? at word
  split at word
  · cases word
  · cases word
  · assumption
  · obtain ⟨op, -, same⟩ := Option.bind_eq_some_iff.mp word
    split at same <;> cases same

theorem Token.not_end_of_word {t : Token} {word : Word} (known : t.word? = some word) :
    t.kind.isStatementEnd = false := by
  cases kind : t.kind <;> first | rfl | simp [word?, operator?, kind] at known

def TokenKind.isForeign : TokenKind → Bool
  | .variable | .question | .colon | .operator | .semicolon | .closeTag => false
  | .keyword word => !word.isOperator
  | _ => true

theorem Token.is_foreign_of_kind {t : Token} (foreign : t.kind.isForeign) : t.isForeign := by
  unfold isForeign word? operator?
  cases kind : t.kind <;> simp_all [TokenKind.isForeign, TokenKind.isStatementEnd]

theorem Token.is_foreign_of_operator {t : Token} (kind : t.kind = .operator)
    (notJoint : isJoint t.text = false) : t.isForeign := by
  simp [isForeign, word?, operator?, kind, notJoint, TokenKind.isStatementEnd]

theorem Token.word_of_operator {t : Token} {op : String} (known : t.operator? = some op) :
    t.word? = if isJoint op then some (.operator op) else none := by
  unfold word?
  split
  next kind => simp [operator?, kind] at known
  next kind => simp [operator?, kind] at known
  next kind => simp [operator?, kind] at known
  next => rw [known, Option.bind_some]

theorem Token.ordinary_of_operator {t : Token} {op : String} (known : t.operator? = some op) :
    t.kind.isOrdinary := by
  unfold operator? at known
  split at known
  next kind => rw [kind]; rfl
  next kind => rw [kind]; rfl
  next => cases known

theorem Token.is_foreign_of_test {t : Token} (known : t.operator? = some "instanceof") :
    t.isForeign := by
  have notJoint : isJoint "instanceof" = false := rfl
  have word := word_of_operator known
  rw [notJoint] at word
  unfold operator? at known
  split at known
  next kind => simp [isForeign, word, kind, TokenKind.isStatementEnd]
  next kind => simp [isForeign, word, kind, TokenKind.isStatementEnd]
  next => cases known

/-- When the tokens of a construct can be the text of a statement, they are words, and when these
are a flat chain, the node is the root of a tree that reads the same. -/
def Spells (nodes : Array Node) (i : Nat) (text : List Token) : Prop :=
  (∀ t ∈ text, t.isForeign = false) → ∃ words,
    text.map Token.word? = words.map some ∧ words.getLast? ≠ some .question ∧
      (isFlat words → ∃ e, Denotes nodes i e ∧ e.reading = words)

def Spelled (s : ParserState) (i : Nat) (s' : ParserState) : Prop := Spells s'.nodes i (taken s s')

theorem Spelled.of_foreign {s s₁ s' : ParserState} {i : Nat} (onward : Onward s s₁)
    (foreign : s₁.token.isForeign) (lt : s₁.place < s'.place) : Spelled s i s' := by
  intro native
  have member : s₁.token ∈ taken s s' :=
    mem_taken.mpr ⟨s₁.place, onward.place_le, lt, onward.tokens ▸ s₁.token_at⟩
  rw [native _ member] at foreign
  cases foreign

namespace Spells

variable {nodes nodes' : Array Node} {i a b m : Nat} {n : Node} {t mark : Token}
  {u v w : List Token}

theorem develops (spells : Spells nodes i u) (develops : Develops nodes nodes') :
    Spells nodes' i u := by
  intro native
  obtain ⟨words, text, last, denotes⟩ := spells native
  refine ⟨words, text, last, fun flat => ?_⟩
  obtain ⟨e, denoted, reading⟩ := denotes flat
  exact ⟨e, denoted.develops develops, reading⟩

theorem leaf (isVariable : t.kind = .variable) (found : nodes[i]? = some n)
    (kind : n.kind = .variable_ t.text) (children : n.children = []) : Spells nodes i [t] := by
  refine fun _ => ⟨[.name t.text], ?_, ?_, fun _ => ⟨.leaf t.text, ?_, rfl⟩⟩
  · simp [Token.word?, isVariable]
  · simp
  · exact .leaf found kind children

theorem get_last_append (words : List Word) {j : Word} {more : List Word}
    (notQuestion : j ≠ .question) (last : more.getLast? ≠ some .question) :
    (words ++ j :: more).getLast? ≠ some .question := by
  rw [List.getLast?_append, List.getLast?_cons, Option.some_or]
  cases h : more.getLast? with
  | none => simpa using notQuestion
  | some word => simpa [h] using last

theorem join {op : String} (first : Spells nodes a u) (second : Spells nodes b v)
    (word : t.word? = some (.operator op)) (joint : isJoint op) (found : nodes[i]? = some n)
    (kind : n.kind = binaryKind op) (children : n.children = [a, b]) :
    Spells nodes i (u ++ t :: v) := by
  intro native
  obtain ⟨left, leftText, -, leftDenotes⟩ := first fun t member => native t (by simp [member])
  obtain ⟨right, rightText, last, rightDenotes⟩ :=
    second fun t member => native t (by simp [member])
  refine ⟨left ++ .operator op :: right, ?_, ?_, fun flat => ?_⟩
  · simp [leftText, rightText, word]
  · exact get_last_append left (by simp) last
  · obtain ⟨leftFlat, rightFlat⟩ :=
      flat_of_append (j := .operator op) (by simp) (by simp) (by simp) flat
    obtain ⟨l, lDenotes, lReading⟩ := leftDenotes leftFlat
    obtain ⟨r, rDenotes, rReading⟩ := rightDenotes rightFlat
    exact ⟨.join op l r, .join found kind joint children lDenotes rDenotes,
      by rw [Chain.reading, lReading, rReading]⟩

theorem default (first : Spells nodes a u) (second : Spells nodes b v)
    (isQuestion : t.kind = .question) (isColon : mark.kind = .colon) (found : nodes[i]? = some n)
    (kind : n.kind = .conditional)
    (children : n.children = [a, b]) : Spells nodes i (u ++ t :: mark :: v) := by
  intro native
  obtain ⟨left, leftText, -, leftDenotes⟩ := first fun t member => native t (by simp [member])
  obtain ⟨right, rightText, last, rightDenotes⟩ :=
    second fun t member => native t (by simp [member])
  refine ⟨left ++ .question :: .colon :: right, ?_, ?_, fun flat => ?_⟩
  · simp [leftText, rightText, Token.word?, isQuestion, isColon]
  · have := get_last_append (left ++ [.question]) (j := .colon) (by simp) last
    simpa using this
  · obtain ⟨leftFlat, rightFlat⟩ := flat_of_append_default flat
    obtain ⟨l, lDenotes, lReading⟩ := leftDenotes leftFlat
    obtain ⟨r, rDenotes, rReading⟩ := rightDenotes rightFlat
    exact ⟨.default l r, .default found kind children lDenotes rDenotes,
      by rw [Chain.reading, lReading, rReading]⟩

theorem choose (first : Spells nodes a u) (second : Spells nodes m v) (third : Spells nodes b w)
    (isQuestion : t.kind = .question) (isColon : mark.kind = .colon)
    (middle : ∃ first rest, v = first :: rest ∧ first.kind ≠ .colon)
    (found : nodes[i]? = some n) (kind : n.kind = .conditional)
    (children : n.children = [a, m, b]) : Spells nodes i (u ++ t :: (v ++ mark :: w)) := by
  intro native
  obtain ⟨left, leftText, -, leftDenotes⟩ := first fun t member => native t (by simp [member])
  obtain ⟨inner, innerText, innerLast, innerDenotes⟩ :=
    second fun t member => native t (by simp [member])
  obtain ⟨right, rightText, last, rightDenotes⟩ := third fun t member => native t (by simp [member])
  refine ⟨left ++ .question :: (inner ++ .colon :: right), ?_, ?_, fun flat => ?_⟩
  · simp [leftText, innerText, rightText, Token.word?, isQuestion, isColon]
  · have := get_last_append (left ++ .question :: inner) (j := .colon) (by simp) last
    simpa using this
  · have opens : (inner ++ .colon :: right).head? ≠ some .colon := by
      obtain ⟨first, rest, rfl, notColon⟩ := middle
      cases inner with
      | nil => simp at innerText
      | cons word inner =>
        have same : first.word? = some word := by simpa using (List.cons.inj innerText).1
        simp only [List.cons_append, List.head?_cons, ne_eq, Option.some.injEq]
        rintro rfl
        exact notColon (Token.kind_of_colon same)
    obtain ⟨leftFlat, flat⟩ :=
      flat_of_append (j := .question) (by simp) (fun _ => opens) (by simp) flat
    obtain ⟨innerFlat, rightFlat⟩ :=
      flat_of_append (j := .colon) (by simp) (by simp) (fun _ => innerLast) flat
    obtain ⟨l, lDenotes, lReading⟩ := leftDenotes leftFlat
    obtain ⟨c, cDenotes, cReading⟩ := innerDenotes innerFlat
    obtain ⟨r, rDenotes, rReading⟩ := rightDenotes rightFlat
    exact ⟨.choose l c r, .choose found kind children lDenotes cDenotes rDenotes,
      by rw [Chain.reading, lReading, cReading, rReading]⟩

/-- A sign in front of its operand is no operator of a chain. -/
theorem prefixed (spells : Spells nodes a u) (isOperator : t.kind = .operator) :
    Spells nodes i (t :: u) := by
  intro native
  obtain ⟨words, text, last, -⟩ := spells fun t member => native t (by simp [member])
  have here := native t List.mem_cons_self
  have word : t.word? = if isJoint t.text then some (.operator t.text) else none := by
    simp [Token.word?, Token.operator?, isOperator]
  by_cases joint : isJoint t.text
  · rw [if_pos joint] at word
    refine ⟨.operator t.text :: words, ?_, ?_, ?_⟩
    · simp [word, text]
    · exact get_last_append [] (by simp) last
    · simp [isFlat]
  · rw [if_neg joint] at word
    simp [Token.isForeign, word, isOperator, TokenKind.isStatementEnd] at here

end Spells

section Statement

variable {s s' : ParserState} {span : Span}

theorem word_of_mem {text : List Token} {words : List Word} {t : Token}
    (spelled : text.map Token.word? = words.map some) (member : t ∈ text) :
    ∃ word, t.word? = some word := by
  have mapped : t.word? ∈ words.map some := spelled ▸ List.mem_map_of_mem member
  obtain ⟨word, -, same⟩ := List.mem_map.mp mapped
  exact ⟨word, same.symm⟩

theorem list_cut (l : List α) {a b : Nat} (le : a ≤ b) :
    l = l.take a ++ ((l.drop a).take (b - a) ++ l.drop b) := by
  have place : a + (b - a) = b := by omega
  have rest := List.take_append_drop (b - a) (l.drop a)
  rw [List.drop_drop, place] at rest
  rw [rest, List.take_append_drop]

/-- The tokens within the span of a construct are those that were taken, but for close tags at
its end. -/
theorem tokens_in_eq (valid : Valid s') (onward : Onward s s') (start : span.start = s.here)
    (stop : span.stop = s'.last.stop) :
    tokensIn s'.tokens span = (taken s s').filter fun t => t.span.start < s'.last.stop := by
  have here := s.token_at
  rw [← onward.tokens] at here
  have before : (s'.tokens.toList.take s.place).filter
      (fun t => span.start ≤ t.span.start && t.span.start < span.stop) = [] := by
    refine List.filter_eq_nil_iff.mpr fun t member => ?_
    obtain ⟨k, found⟩ := List.mem_iff_getElem?.mp member
    rw [List.getElem?_take] at found
    split at found
    · rw [Array.getElem?_toList] at found
      have lt := valid.lexed.ordered k s.place t s.token (by assumption) found here
      have low : s.place < s'.tokens.size := Nat.lt_of_le_of_lt onward.place_le s'.place_lt
      have more := valid.lexed.more (by assumption) low found
      have extent := valid.lexed.extent t (Array.mem_of_getElem? found) more
      have : ¬span.start ≤ t.span.start := by
        rw [start, ParserState.here]
        omega
      simp [this]
    · cases found
  have behind : (s'.tokens.toList.drop s'.place).filter
      (fun t => span.start ≤ t.span.start && t.span.start < span.stop) = [] := by
    refine List.filter_eq_nil_iff.mpr fun t member => ?_
    obtain ⟨k, found⟩ := List.mem_iff_getElem?.mp member
    rw [List.getElem?_drop, Array.getElem?_toList] at found
    have le := valid.lexed.start_mono (Nat.le_add_right s'.place k) s'.token_at found
    have last := valid.last_le
    rw [ParserState.here] at last
    have : ¬t.span.start < span.stop := by omega
    simp [this]
  have inside : ∀ t ∈ taken s s', (decide (span.start ≤ t.span.start) &&
      decide (t.span.start < span.stop)) = decide (t.span.start < s'.last.stop) := by
    intro t member
    obtain ⟨k, le, -, found⟩ := mem_taken.mp member
    rw [← onward.tokens] at found
    have start_le := valid.lexed.start_mono le here found
    have : span.start ≤ t.span.start := by
      rw [start, ParserState.here]
      exact start_le
    simp [this, stop]
  have middle : (s'.tokens.toList.drop s.place).take (s'.place - s.place) = taken s s' := by
    rw [taken, onward.tokens]
  rw [tokensIn, list_cut s'.tokens.toList onward.place_le, middle, List.filter_append,
    List.filter_append, before, behind, List.nil_append, List.append_nil]
  exact List.filter_congr inside

theorem taken_within (valid : Valid s') (onward : Onward s s') {t : Token}
    (member : t ∈ taken s s') : t.kind = .closeTag ∨ t.span.start < s'.last.stop := by
  obtain ⟨k, -, lt, found⟩ := mem_taken.mp member
  rw [← onward.tokens] at found
  have more := valid.lexed.more lt s'.place_lt found
  have extent := valid.lexed.extent t (Array.mem_of_getElem? found) more
  exact (valid.taken k t lt found).imp_right fun le => Nat.lt_of_lt_of_le extent le

/-- A statement of one expression, of whose tokens no other than close tags were left out: when
the text is a flat chain, it is all that the expression took. -/
theorem Spells.statement {nodes : Array Node} {i : Nat} {all text : List Token} {words : List Word}
    {inside : Token → Bool} (spells : Spells nodes i all)
    (within : ∀ t ∈ all, t.kind = .closeTag ∨ inside t)
    (kept : all.filter inside = text ∨
      ∃ mark : Token, mark.kind = .semicolon ∧ all.filter inside = text ++ [mark])
    (spelled : text.map Token.word? = words.map some) (flat : isFlat words) :
    ∃ e, Denotes nodes i e ∧ e.reading = words := by
  have native : ∀ t ∈ all, t.isForeign = false := by
    intro t member
    rcases within t member with isClose | isInside
    · simp [Token.isForeign, isClose, TokenKind.isStatementEnd]
    have member : t ∈ all.filter inside := List.mem_filter.mpr ⟨member, isInside⟩
    rcases kept with whole | ⟨mark, isSemicolon, whole⟩
    · obtain ⟨word, same⟩ := word_of_mem spelled (whole ▸ member)
      simp [Token.isForeign, same]
    · rw [whole] at member
      rcases List.mem_append.mp member with member | member
      · obtain ⟨word, same⟩ := word_of_mem spelled member
        simp [Token.isForeign, same]
      · rw [List.mem_singleton.mp member]
        simp [Token.isForeign, isSemicolon, TokenKind.isStatementEnd]
  obtain ⟨words', isText, -, denotes⟩ := spells native
  have notEnd : ∀ t ∈ all, t.kind.isStatementEnd = false := by
    intro t member
    obtain ⟨word, same⟩ := word_of_mem isText member
    exact Token.not_end_of_word same
  have whole : all.filter inside = all := by
    refine List.filter_eq_self.mpr fun t member => ?_
    refine (within t member).resolve_left fun isClose => ?_
    have := notEnd t member
    rw [isClose] at this
    cases this
  rw [whole] at kept
  rcases kept with same | ⟨mark, isSemicolon, same⟩
  · rw [same, spelled] at isText
    have same : words = words' := (List.map_inj_right fun _ _ => Option.some.inj).mp isText
    obtain ⟨e, denoted, reading⟩ := denotes (same ▸ flat)
    exact ⟨e, denoted, reading.trans same.symm⟩
  · have := notEnd mark (same ▸ List.mem_append_right text (List.mem_singleton.mpr rfl))
    rw [isSemicolon] at this
    cases this

/-- The text of a statement, but for the token that ends it, is what was taken in front of it. -/
theorem StatementText.kept {text : List Token} {words : List Word} (valid : Valid s'.advance)
    (onward : Onward s s'.advance) (before : Onward s s') (later : Onward s' s'.advance)
    (isEnd : s'.token.kind.isStatementEnd) (start : span.start = s.here)
    (stop : span.stop = s'.advance.last.stop) (spans : StatementText s'.advance.tokens span text)
    (spelled : text.map Token.word? = words.map some) :
    (taken s s').filter (fun t => t.span.start < s'.advance.last.stop) = text ∨
      ∃ mark : Token, mark.kind = .semicolon ∧
        (taken s s').filter (fun t => t.span.start < s'.advance.last.stop) = text ++ [mark] := by
  have more : s'.token.kind ≠ .eof := fun same => by rw [same] at isEnd; cases isEnd
  have cut : taken s s'.advance = taken s s' ++ [s'.token] := by
    rw [taken_trans before later, taken_one (place_advance more)]
  rw [StatementText, tokens_in_eq valid onward start stop, cut, List.filter_append] at spans
  by_cases inside : s'.token.span.start < s'.advance.last.stop
  · simp only [List.filter_cons, inside, decide_true, if_true, List.filter_nil] at spans
    rcases spans with whole | ⟨mark, -, whole⟩
    · have member : s'.token ∈ text := by simp [← whole]
      obtain ⟨word, same⟩ := word_of_mem spelled member
      have notEnd := Token.not_end_of_word same
      rw [isEnd] at notEnd
      cases notEnd
    · exact .inl (List.append_inj_left' whole rfl)
  · simpa only [List.filter_cons, inside, decide_false, Bool.false_eq_true, if_false,
      List.filter_nil, List.append_nil] using spans

end Statement

end PhpAnalyser
