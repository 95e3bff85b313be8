import PhpAnalyser.Grammar.Parser
import PhpAnalyser.Proofs.Syntax.Space
/-!
The states that readers of syntax go through, and what holds between an earlier and a later one.
-/
namespace PhpAnalyser

namespace ParserState

def tokens (s : ParserState) : Array Token := s.stream.tokens

def token (s : ParserState) : Token := s.stream.current

def place (s : ParserState) : Nat := s.stream.position

def here (s : ParserState) : Nat := s.token.span.start

theorem place_lt (s : ParserState) : s.place < s.tokens.size := s.stream.position_lt

theorem token_at (s : ParserState) : s.tokens[s.place]? = some s.token :=
  Array.getElem?_eq_getElem s.place_lt

theorem token_mem (s : ParserState) : s.token ∈ s.tokens := Array.mem_of_getElem? s.token_at

end ParserState

def TokenKind.isBoundary : TokenKind → Bool
  | rightBrace | semicolon | closeTag => true
  | keyword word => Parser.startsStatement word
  | _ => false

/-- Since one of the errors, up to the place `k`, there was no token to go on at. -/
def Overlooked (tokens : Array Token) (errors : List ParseError) (k : Nat) : Prop :=
  ∃ e ∈ errors, ∃ j t, j < k ∧ tokens[j]? = some t ∧ t.span = e.span ∧
    ∀ i u, j < i → i < k → tokens[i]? = some u → u.kind.isBoundary = false

theorem Overlooked.more {tokens : Array Token} {errors later : List ParseError} {k : Nat}
    (overlooked : Overlooked tokens errors k) : Overlooked tokens (errors ++ later) k := by
  obtain ⟨e, member, rest⟩ := overlooked
  exact ⟨e, List.mem_append_left _ member, rest⟩

structure Valid (s : ParserState) : Prop where
  lexed : Lexed s.tokens
  wellFormed : WellFormed s.tokens s.nodes
  last : s.last = .origin ∨ Anchored s.tokens s.last
  last_le : s.last.stop ≤ s.here
  taken : ∀ k t, k < s.place → s.tokens[k]? = some t →
    t.kind = .closeTag ∨ t.span.stop ≤ s.last.stop
  noted : ∀ e ∈ s.errors, e.fault.isRecoverable ∧ (∃ t ∈ s.tokens, t.span = e.span) ∧
    e.span.start < s.here
  sorted : s.errors.Pairwise fun e f => e.span.start < f.span.start
  passed : ∀ k t, k < s.place → s.tokens[k]? = some t → t.kind.isError →
    Overlooked s.tokens s.errors k

/-- How deep a production is nested, the variables of `static` statements that have not got
their statement yet, and the namespace, if the production cannot leave it, with the number of
nodes made before. -/
structure Setting where
  depth : Nat
  loose : List Nat
  space : Option (String × Nat)

structure Housed (names : NameContext) (nodes : Array Node) (space : String) (floor : Nat) :
    Prop where
  package : names.package = space
  kinds : ∀ i n, floor ≤ i → nodes[i]? = some n → n.kind.InSpace space

structure Worded (names : NameContext) (nodes : Array Node) : Prop where
  package : Clean names.package
  kinds : ∀ (i : Nat) (n : Node), nodes[i]? = some n → n.kind.Clean

/-- What a state has between the steps of a production. -/
structure Sound (c : Setting) (s : ParserState) : Prop extends Valid s where
  depth : s.depth = c.depth
  lawful : s.errors = [] → ∀ i n, s.nodes[i]? = some n → Lawful s.tokens c.loose s.nodes i n
  housed : s.errors = [] → ∀ space floor, c.space = some (space, floor) →
    Housed s.names s.nodes space floor
  worded : s.errors = [] → Worded s.names s.nodes

theorem Sound.loosen {c c' : Setting} {s : ParserState} (sound : Sound c s)
    (rest : c' = { c with loose := c'.loose }) (le : ∀ i ∈ c.loose, i ∈ c'.loose) :
    Sound c' s where
  toValid := sound.toValid
  depth := by
    rw [rest]
    exact sound.depth
  lawful none i n found := (sound.lawful none i n found).mono le
  housed := by
    rw [rest]
    exact sound.housed
  worded := sound.worded

structure Fits (c : Setting) (s : ParserState) (kind : NodeKind) : Prop where
  inside : s.errors = [] → ∀ space floor, c.space = some (space, floor) → kind.InSpace space
  clean : s.errors = [] → kind.Clean

section Fits

variable {c : Setting} {s : ParserState} {kind : NodeKind}

theorem Fits.of_plain (plain : kind.isPlain) : Fits c s kind where
  inside _ space _ _ := by cases kind <;> trivial
  clean _ := by cases kind <;> trivial

theorem Fits.of_operator {op : String} (operator : kind.operator? = some op) : Fits c s kind where
  inside _ space _ _ := by cases kind <;> trivial
  clean _ := by cases kind <;> trivial

theorem Fits.of_sign {power : Nat} (asks : kind.isPlain ∨ kind.operandPower? = some power) :
    Fits c s kind := by
  rcases asks with plain | asks
  · exact .of_plain plain
  · constructor
    · intro _ space _ _
      cases kind <;> trivial
    · intro _
      cases kind <;> trivial

end Fits

structure Onward (s s' : ParserState) : Prop where
  tokens : s'.tokens = s.tokens
  place_le : s.place ≤ s'.place
  start_le : s.last.start ≤ s'.last.start
  stop_le : s.last.stop ≤ s'.last.stop
  grown : Extends s.nodes s'.nodes
  errors : s.errors <+: s'.errors

theorem Onward.refl (s : ParserState) : Onward s s :=
  ⟨rfl, Nat.le_refl _, Nat.le_refl _, Nat.le_refl _, .refl _, List.prefix_rfl⟩

theorem Onward.trans {s s' s'' : ParserState} (first : Onward s s') (second : Onward s' s'') :
    Onward s s'' where
  tokens := second.tokens.trans first.tokens
  place_le := Nat.le_trans first.place_le second.place_le
  start_le := Nat.le_trans first.start_le second.start_le
  stop_le := Nat.le_trans first.stop_le second.stop_le
  grown := first.grown.trans second.grown
  errors := first.errors.trans second.errors

/-- Errors are never forgotten. -/
theorem Onward.clean {s s' : ParserState} (onward : Onward s s') (none : s'.errors = []) :
    s.errors = [] :=
  List.prefix_nil.mp (none ▸ onward.errors)

theorem Lexed.start_mono {tokens : Array Token} (lexed : Lexed tokens) {i j : Nat} {a b : Token}
    (le : i ≤ j) (first : tokens[i]? = some a) (second : tokens[j]? = some b) :
    a.span.start ≤ b.span.start := by
  rcases Nat.lt_or_eq_of_le le with lt | rfl
  · have := lexed.ordered i j a b lt first second
    have := lexed.start_le a (Array.mem_of_getElem? first)
    omega
  · rw [first] at second
    exact Option.some.inj second ▸ Nat.le_refl _

/-- Only the last token can be the mark of the end. -/
theorem Lexed.more {tokens : Array Token} (lexed : Lexed tokens) {i j : Nat} {a : Token} (lt : i < j)
    (low : j < tokens.size) (found : tokens[i]? = some a) : a.kind ≠ .eof := by
  intro ends
  have last := lexed.last i a found ends
  omega

theorem Onward.here_le {s s' : ParserState} (onward : Onward s s') (valid : Valid s) :
    s.here ≤ s'.here :=
  valid.lexed.start_mono onward.place_le s.token_at (onward.tokens ▸ s'.token_at)

theorem Onward.token_eq {s s' : ParserState} (onward : Onward s s') (same : s'.place = s.place) :
    s'.token = s.token := by
  have found := s'.token_at
  rw [onward.tokens, same, s.token_at] at found
  exact (Option.some.inj found).symm

section Advance

variable {s : ParserState}

theorem advance_of_eof (ends : s.token.kind = .eof) : s.advance = s := by
  have none : s.stream.next? = none := dif_pos ends
  rw [ParserState.advance, none]

theorem advance_of_more (more : s.token.kind ≠ .eof) :
    s.advance = { s with
      stream := ⟨s.stream.tokens, s.stream.position + 1, s.stream.next_position_lt more,
        s.stream.closed⟩
      last := if s.token.kind = .closeTag then s.last else s.token.span } := by
  have next : s.stream.next? = some (s.token, ⟨s.stream.tokens, s.stream.position + 1,
      s.stream.next_position_lt more, s.stream.closed⟩) := dif_neg more
  rw [ParserState.advance, next]

theorem place_advance (more : s.token.kind ≠ .eof) : s.advance.place = s.place + 1 := by
  rw [advance_of_more more]
  rfl

theorem last_advance (more : s.token.kind ≠ .eof) :
    s.advance.last = if s.token.kind = .closeTag then s.last else s.token.span := by
  rw [advance_of_more more]

theorem tokens_advance : s.advance.tokens = s.tokens := by
  by_cases ends : s.token.kind = .eof
  · rw [advance_of_eof ends]
  · rw [advance_of_more ends]
    rfl

theorem nodes_advance : s.advance.nodes = s.nodes := by
  by_cases ends : s.token.kind = .eof
  · rw [advance_of_eof ends]
  · rw [advance_of_more ends]

theorem errors_advance : s.advance.errors = s.errors := by
  by_cases ends : s.token.kind = .eof
  · rw [advance_of_eof ends]
  · rw [advance_of_more ends]

theorem names_advance : s.advance.names = s.names := by
  by_cases ends : s.token.kind = .eof
  · rw [advance_of_eof ends]
  · rw [advance_of_more ends]

theorem depth_advance : s.advance.depth = s.depth := by
  by_cases ends : s.token.kind = .eof
  · rw [advance_of_eof ends]
  · rw [advance_of_more ends]

theorem peek_one (more : s.token.kind ≠ .eof) : s.stream.peek 1 = s.advance.token := by
  have low := s.stream.next_position_lt more
  have here : min (s.stream.position + 1) (s.stream.tokens.size - 1) = s.stream.position + 1 := by
    omega
  rw [advance_of_more more]
  simp only [TokenStream.peek, here]
  rfl

theorem peek_two (more : s.token.kind ≠ .eof) (more' : s.advance.token.kind ≠ .eof) :
    s.stream.peek 2 = s.advance.advance.token := by
  have low := s.advance.stream.next_position_lt more'
  rw [advance_of_more more']
  simp only [advance_of_more more] at low ⊢
  have here : min (s.stream.position + 2) (s.stream.tokens.size - 1) = s.stream.position + 2 := by
    omega
  simp only [TokenStream.peek, here]
  rfl

theorem Anchored.of_token {tokens : Array Token} {t : Token} (lexed : Lexed tokens)
    (member : t ∈ tokens) (more : t.kind ≠ .eof) (inside : t.kind ≠ .closeTag) :
    Anchored tokens t.span :=
  ⟨⟨t, member, inside, rfl, rfl⟩, ⟨t, member, inside, rfl, rfl⟩, lexed.extent t member more⟩

theorem Valid.stop_le_next (valid : Valid s) (more : s.token.kind ≠ .eof) :
    s.token.span.stop ≤ s.advance.here := by
  refine valid.lexed.ordered s.place s.advance.place _ _ ?_ s.token_at ?_
  · rw [place_advance more]
    exact Nat.lt_succ_self _
  · rw [← tokens_advance]
    exact s.advance.token_at

theorem Valid.last_extent (valid : Valid s) : s.last.start ≤ s.last.stop := by
  rcases valid.last with same | anchored
  · rw [same]
    exact Nat.le_refl _
  · exact Nat.le_of_lt anchored.extent

theorem Valid.stop_le_advance (valid : Valid s) : s.last.stop ≤ s.advance.last.stop := by
  by_cases ends : s.token.kind = .eof
  · exact Nat.le_of_eq (by rw [advance_of_eof ends])
  · have extent := valid.lexed.extent _ s.token_mem ends
    have before := valid.last_le
    rw [ParserState.here] at before
    rw [last_advance ends]
    split <;> omega

theorem Valid.onward_advance (valid : Valid s) : Onward s s.advance where
  tokens := tokens_advance
  place_le := by
    by_cases ends : s.token.kind = .eof
    · exact Nat.le_of_eq (by rw [advance_of_eof ends])
    · rw [place_advance ends]
      exact Nat.le_succ _
  start_le := by
    by_cases ends : s.token.kind = .eof
    · exact Nat.le_of_eq (by rw [advance_of_eof ends])
    · have extent := valid.last_extent
      have before := valid.last_le
      rw [ParserState.here] at before
      rw [last_advance ends]
      split <;> omega
  stop_le := valid.stop_le_advance
  grown := by
    rw [nodes_advance]
    exact .refl _
  errors := errors_advance.symm ▸ List.prefix_rfl

/-- An error token may only be passed over in search of a place to go on. -/
theorem Valid.advance (valid : Valid s)
    (fine : s.token.kind.isError → Overlooked s.tokens s.errors s.place) :
    Valid s.advance := by
  by_cases ends : s.token.kind = .eof
  · rwa [advance_of_eof ends]
  have next := valid.stop_le_next ends
  have extent := valid.lexed.extent _ s.token_mem ends
  have before := valid.last_le
  have later := valid.onward_advance.here_le valid
  rw [ParserState.here] at before
  have split_place : ∀ k t, k < s.advance.place → s.advance.tokens[k]? = some t →
      (k < s.place ∧ s.tokens[k]? = some t) ∨ (k = s.place ∧ t = s.token) := by
    intro k t low found
    rw [place_advance ends] at low
    rw [tokens_advance] at found
    rcases Nat.lt_succ_iff_lt_or_eq.mp low with low | rfl
    · exact .inl ⟨low, found⟩
    · rw [s.token_at] at found
      exact .inr ⟨rfl, (Option.some.inj found).symm⟩
  constructor
  case lexed =>
    rw [tokens_advance]
    exact valid.lexed
  case wellFormed =>
    rw [tokens_advance, nodes_advance]
    exact valid.wellFormed
  case last =>
    rw [tokens_advance, last_advance ends]
    split
    · exact valid.last
    · exact .inr (.of_token valid.lexed s.token_mem ends (by assumption))
  case last_le =>
    rw [last_advance ends]
    split <;> omega
  case taken =>
    intro k t low found
    rcases split_place k t low found with ⟨low, found⟩ | ⟨rfl, rfl⟩
    · exact (valid.taken k t low found).imp_right fun le => Nat.le_trans le valid.stop_le_advance
    · rw [last_advance ends]
      split
      · exact .inl (by assumption)
      · exact .inr (Nat.le_refl _)
  case noted =>
    intro e member
    rw [errors_advance] at member
    rw [tokens_advance]
    obtain ⟨recoverable, located, before⟩ := valid.noted e member
    exact ⟨recoverable, located, Nat.lt_of_lt_of_le before later⟩
  case sorted =>
    rw [errors_advance]
    exact valid.sorted
  case passed =>
    intro k t low found isError
    rw [tokens_advance, errors_advance]
    rcases split_place k t low found with ⟨low, found⟩ | ⟨rfl, rfl⟩
    · exact valid.passed k t low found isError
    · exact fine isError

theorem Sound.advance {c : Setting} (sound : Sound c s)
    (fine : s.token.kind.isError → Overlooked s.tokens s.errors s.place) :
    Sound c s.advance where
  toValid := sound.toValid.advance fine
  depth := depth_advance.trans sound.depth
  lawful none i n found := by
    rw [errors_advance] at none
    rw [nodes_advance] at found
    rw [tokens_advance, nodes_advance]
    exact sound.lawful none i n found
  housed none space floor inside := by
    rw [errors_advance] at none
    obtain ⟨package, kinds⟩ := sound.housed none space floor inside
    constructor
    · rwa [names_advance]
    · rwa [nodes_advance]
  worded := by
    rw [errors_advance, names_advance, nodes_advance]
    exact sound.worded

end Advance

end PhpAnalyser
