import PhpAnalyser.Grammar.Declaration
import PhpAnalyser.Proofs.Grammar.Yield
import PhpAnalyser.Proofs.Scope.Judgement
/-!
The body of a type as a row of members: each member takes up the tokens from where the one in front
of it ends, and spans them, but for close tags at its end and for the modifiers of a constant. And
what lies between two states of a reader that has met with no error: which tokens it took and which
nodes it made.
-/
namespace PhpAnalyser

def TokenKind.isSeal : TokenKind → Bool
  | semicolon | closeTag | rightBrace | rightParen | colon | eof => true
  | _ => false

def TokenKind.isModifier (kind : TokenKind) : Bool :=
  kind.keyword?.any fun word => (Parser.addModifier? .none word).isSome

/-- The node `i` is the member of the tokens from `low` up to `high`. It spans those from `first` to
`last`. -/
structure MemberAt (tokens : Array Token) (nodes : Array Node) (low high i first last : Nat) :
    Prop where
  low_le : low ≤ first
  first_le : first ≤ last
  last_lt : last < high
  spans : ∃ a b n, tokens[first]? = some a ∧ tokens[last]? = some b ∧ nodes[i]? = some n ∧
    n.span = a.span.merge b.span ∧ a.kind ≠ .closeTag ∧ b.kind ≠ .closeTag ∧
    (low < first → a.kind = .keyword .const_ ∧ n.kind = .constantDeclaration)
  front : ∀ j t, low ≤ j → j < first → tokens[j]? = some t → t.kind.isModifier
  behind : ∀ j t, last < j → j < high → tokens[j]? = some t → t.kind = .closeTag
  shut : ∀ t, tokens[high - 1]? = some t → t.kind.isSeal = true

inductive Lined (tokens : Array Token) (nodes : Array Node) : Nat → Nat → List Nat → Prop
  | nil (low : Nat) : Lined tokens nodes low low []
  | cons {low middle high i first last : Nat} {ids : List Nat}
      (member : MemberAt tokens nodes low middle i first last)
      (rest : Lined tokens nodes middle high ids) : Lined tokens nodes low high (i :: ids)

structure Membered (tokens : Array Token) (nodes : Array Node) (n : Node)
    (start opening closing : Nat) : Prop where
  start_le : start ≤ opening
  spans : ∃ a b c, tokens[start]? = some a ∧ tokens[opening]? = some b ∧ tokens[closing]? = some c ∧
    n.span = a.span.merge c.span ∧ b.kind = .leftBrace ∧ c.kind = .rightBrace
  header : ∀ j t, start ≤ j → j < opening → tokens[j]? = some t → t.kind ≠ .leftBrace
  body : Lined tokens nodes (opening + 1) closing n.children

section

variable {tokens : Array Token} {nodes nodes' : Array Node}

theorem MemberAt.develops {low high i first last : Nat}
    (member : MemberAt tokens nodes low high i first last) (develops : Develops nodes nodes') :
    MemberAt tokens nodes' low high i first last where
  low_le := member.low_le
  first_le := member.first_le
  last_lt := member.last_lt
  spans := by
    obtain ⟨a, b, n, first, last, found, span, opens, ends, constant⟩ := member.spans
    obtain ⟨n', found', kind, span', -⟩ := develops i n found
    exact ⟨a, b, n', first, last, found', span'.trans span, opens, ends,
      fun behind => ⟨(constant behind).1, kind.trans (constant behind).2⟩⟩
  front := member.front
  behind := member.behind
  shut := member.shut

theorem Lined.develops {low high : Nat} {ids : List Nat} (lined : Lined tokens nodes low high ids)
    (develops : Develops nodes nodes') : Lined tokens nodes' low high ids := by
  induction lined with
  | nil low => exact .nil low
  | cons member _ ih => exact .cons (member.develops develops) ih

theorem Lined.append {low middle high : Nat} {ids later : List Nat}
    (first : Lined tokens nodes low middle ids) (second : Lined tokens nodes middle high later) :
    Lined tokens nodes low high (ids ++ later) := by
  induction first with
  | nil low => exact second
  | cons member _ ih => exact .cons member (ih second)

theorem Membered.develops {n n' : Node} {start opening closing : Nat}
    (membered : Membered tokens nodes n start opening closing) (develops : Develops nodes nodes')
    (span : n'.span = n.span) (children : n'.children = n.children) :
    Membered tokens nodes' n' start opening closing where
  start_le := membered.start_le
  spans := by rw [span]; exact membered.spans
  header := membered.header
  body := by rw [children]; exact membered.body.develops develops

end

def TokenKind.isParen : TokenKind → Bool
  | leftParen | rightParen => true
  | _ => false

inductive Paired : List Token → Prop
  | nil : Paired []
  | plain {t : Token} {ts : List Token} (other : t.kind.isParen = false) (rest : Paired ts) :
    Paired (t :: ts)
  | pair {opening closing : Token} {inner ts : List Token} (opens : opening.kind = .leftParen)
    (closes : closing.kind = .rightParen) (inside : Paired inner) (rest : Paired ts) :
    Paired (opening :: (inner ++ closing :: ts))

namespace Paired

variable {xs ys : List Token}

theorem append (first : Paired xs) (second : Paired ys) : Paired (xs ++ ys) := by
  induction first with
  | nil => exact second
  | plain other _ ih => exact .plain other ih
  | @pair opening closing inner ts opens closes inside _ _ ih =>
    have whole : Paired (opening :: (inner ++ closing :: (ts ++ ys))) :=
      .pair opens closes inside ih
    simpa using whole

/-- Behind paired parentheses the next closing one is the first without a counterpart. -/
theorem closing_unique {a b : Token} {rest rest' : List Token} (first : Paired xs)
    (second : Paired ys) (closes : a.kind = .rightParen) (closes' : b.kind = .rightParen)
    (same : xs ++ a :: rest = ys ++ b :: rest') : xs = ys := by
  induction first generalizing ys a b rest rest' with
  | nil =>
    cases second with
    | nil => rfl
    | plain other _ =>
      obtain ⟨rfl, -⟩ := List.cons.inj same
      rw [closes] at other
      cases other
    | pair opens _ _ _ =>
      obtain ⟨rfl, -⟩ := List.cons.inj same
      cases closes.symm.trans opens
  | plain other _ ih =>
    cases second with
    | nil =>
      obtain ⟨rfl, -⟩ := List.cons.inj same
      rw [closes'] at other
      cases other
    | plain _ second =>
      obtain ⟨rfl, tail⟩ := List.cons.inj same
      rw [ih second closes closes' tail]
    | pair opens _ _ _ =>
      obtain ⟨rfl, -⟩ := List.cons.inj same
      rw [opens] at other
      cases other
  | pair opens closes₁ _ _ inside ih =>
    cases second with
    | nil =>
      obtain ⟨rfl, -⟩ := List.cons.inj same
      cases closes'.symm.trans opens
    | plain other _ =>
      obtain ⟨rfl, -⟩ := List.cons.inj same
      rw [opens] at other
      cases other
    | pair _ closes₂ inside' second =>
      simp only [List.cons_append, List.append_assoc] at same
      obtain ⟨rfl, tail⟩ := List.cons.inj same
      obtain rfl := inside inside' closes₁ closes₂ tail
      obtain ⟨rfl, behind⟩ := List.cons.inj (List.append_cancel_left tail)
      rw [ih second closes closes' behind]

end Paired

/-- No parenthesis is written like the word of an arrow function. -/
def Legible (tokens : Array Token) : Prop :=
  ∀ t ∈ tokens, Parser.isArrowWord t = true → t.kind.isParen = false

def ParserState.Plain (s : ParserState) : Prop := Legible s.tokens → s.token.kind.isParen = false

theorem ParserState.Plain.of_kind {s : ParserState} {kind : TokenKind} (is : s.token.kind = kind)
    (other : kind.isParen = false) : s.Plain :=
  fun _ => is ▸ other

theorem ParserState.Plain.arrow {s : ParserState} (is : Parser.isArrowWord s.token = true) :
    s.Plain :=
  fun legible => legible s.token s.token_mem is

/-- The tokens from `s` to `s'`, apart from close tags, end with the last token taken of `s'`. If
there are none of them, the last token is still that of `s`. -/
structure Trails (s s' : ParserState) : Prop where
  last : ∀ k t, s.place ≤ k → k < s'.place → s.tokens[k]? = some t → t.kind ≠ .closeTag →
    (∀ j u, k < j → j < s'.place → s.tokens[j]? = some u → u.kind = .closeTag) → s'.last = t.span
  same : (∀ j u, s.place ≤ j → j < s'.place → s.tokens[j]? = some u → u.kind = .closeTag) →
    s'.last = s.last

namespace Trails

variable {s s₁ s₂ : ParserState}

theorem still (place : s₁.place = s.place) (last : s₁.last = s.last) : Trails s s₁ where
  last k t low high _ _ _ := by omega
  same _ := last

theorem trans (first : Trails s s₁) (second : Trails s₁ s₂) (tokens : s₁.tokens = s.tokens)
    (le : s.place ≤ s₁.place) (le' : s₁.place ≤ s₂.place) : Trails s s₂ where
  last k t low high found inside behind := by
    by_cases late : s₁.place ≤ k
    · exact second.last k t late high (tokens ▸ found) inside (tokens ▸ behind)
    · rw [second.same fun j u after before found => behind j u (by omega) before (tokens ▸ found)]
      exact first.last k t low (by omega) found inside fun j u after before =>
        behind j u after (by omega)
  same all := by
    rw [second.same fun j u after before found => all j u (by omega) before (tokens ▸ found)]
    exact first.same fun j u after before => all j u after (by omega)

theorem advance (s : ParserState) : Trails s s.advance := by
  by_cases ends : s.token.kind = .eof
  · rw [advance_of_eof ends]
    exact .still rfl rfl
  constructor
  · intro k t low high found inside _
    rw [place_advance ends] at high
    obtain rfl : k = s.place := by omega
    obtain rfl := Option.some.inj (found.symm.trans s.token_at)
    rw [last_advance ends, if_neg inside]
  · intro all
    rw [place_advance ends] at all
    rw [last_advance ends, if_pos (all s.place _ (Nat.le_refl _) (Nat.lt_succ_self _) s.token_at)]

/-- The last of the tokens taken that is no close tag. -/
theorem reached (trails : Trails s s₁) {k : Nat} {t : Token} (low : s.place ≤ k)
    (high : k < s₁.place) (found : s.tokens[k]? = some t) (inside : t.kind ≠ .closeTag) :
    ∃ last u, k ≤ last ∧ last < s₁.place ∧ s.tokens[last]? = some u ∧ u.kind ≠ .closeTag ∧
      s₁.last = u.span ∧
      ∀ j v, last < j → j < s₁.place → s.tokens[j]? = some v → v.kind = .closeTag := by
  induction far : s₁.place - k using Nat.strongRecOn generalizing k t with
  | ind far ih =>
    by_cases behind : ∀ j v, k < j → j < s₁.place → s.tokens[j]? = some v → v.kind = .closeTag
    · exact ⟨k, t, Nat.le_refl _, high, found, inside, trails.last k t low high found inside behind,
        behind⟩
    · simp only [not_forall] at behind
      obtain ⟨j, v, after, before, later, other⟩ := behind
      obtain ⟨last, u, le, rest⟩ := ih (s₁.place - j) (by omega) (by omega) before later other rfl
      exact ⟨last, u, by omega, rest⟩

end Trails

/-- From `s` to `s'` there was no error. If they are `steady`, the names in effect are the same. -/
structure Passage (steady : Bool) (s s' : ParserState) : Prop where
  clean : s.errors = []
  tokens : s'.tokens = s.tokens
  place_le : s.place ≤ s'.place
  nodes : Develops s.nodes s'.nodes
  paired : Legible s.tokens → ∃ ts, Paired ts ∧ s.tokensAhead = ts ++ s'.tokensAhead
  trails : Trails s s'
  depth : s'.depth = s.depth
  scope : s'.scope = s.scope
  names : steady = true → s'.names = s.names
  types : ∀ i n, s.nodes.size ≤ i → s'.nodes[i]? = some n →
    n.kind.isTypeDeclaration = true →
    ∃ start opening closing, Membered s'.tokens s'.nodes n start opening closing

namespace Passage

variable {steady : Bool} {s s₁ s₂ : ParserState}

/-- Neither a token was taken nor a node made. -/
theorem still (clean : s.errors = []) (stream : s₁.stream = s.stream) (nodes : s₁.nodes = s.nodes)
    (last : s₁.last = s.last) (depth : s₁.depth = s.depth) (scope : s₁.scope = s.scope)
    (names : steady = true → s₁.names = s.names) : Passage steady s s₁ where
  clean := clean
  tokens := congrArg TokenStream.tokens stream
  place_le := Nat.le_of_eq (congrArg TokenStream.position stream).symm
  nodes := nodes ▸ .refl _
  paired _ := by
    refine ⟨[], .nil, ?_⟩
    simp [ParserState.tokensAhead, ParserState.tokens, ParserState.place, stream]
  trails := .still (congrArg TokenStream.position stream) last
  depth := depth
  scope := scope
  names := names
  types i n made found _ := by
    rw [nodes] at found
    exact absurd (Array.getElem?_eq_some_iff.mp found).1 (Nat.not_lt.mpr made)

theorem refl (clean : s.errors = []) : Passage steady s s :=
  .still clean rfl rfl rfl rfl rfl fun _ => rfl

theorem trans (first : Passage steady s s₁) (second : Passage steady s₁ s₂) : Passage steady s s₂ where
  clean := first.clean
  tokens := second.tokens.trans first.tokens
  place_le := Nat.le_trans first.place_le second.place_le
  nodes := first.nodes.trans second.nodes
  paired legible := by
    obtain ⟨xs, paired, ahead⟩ := first.paired legible
    obtain ⟨ys, paired', ahead'⟩ := second.paired (first.tokens ▸ legible)
    exact ⟨xs ++ ys, paired.append paired', by rw [ahead, ahead', List.append_assoc]⟩
  trails := first.trails.trans second.trails first.tokens first.place_le second.place_le
  depth := second.depth.trans first.depth
  scope := second.scope.trans first.scope
  names is := (second.names is).trans (first.names is)
  types i n made found type := by
    by_cases early : i < s₁.nodes.size
    · obtain ⟨n', found', kind, span, children⟩ := second.nodes i _ (Array.getElem?_eq_getElem early)
      obtain rfl := Option.some.inj (found.symm.trans found')
      obtain ⟨start, opening, closing, membered⟩ :=
        first.types i _ made (Array.getElem?_eq_getElem early) (kind ▸ type)
      rw [second.tokens]
      exact ⟨start, opening, closing, membered.develops second.nodes span children⟩
    · exact second.types i n (Nat.le_of_not_lt early) found type

/-- The token taken is no parenthesis. -/
theorem advance (clean : s.errors = []) (plain : s.Plain) : Passage steady s s.advance := by
  by_cases ends : s.token.kind = .eof
  · rw [advance_of_eof ends]
    exact .refl clean
  exact {
    clean
    tokens := tokens_advance
    place_le := by rw [place_advance ends]; exact Nat.le_succ _
    nodes := nodes_advance ▸ .refl _
    paired := fun legible => by
      refine ⟨[s.token], .plain (plain legible) .nil, ?_⟩
      rw [List.singleton_append, tokens_ahead_advance (tokens_ahead_eq s) ends, tokens_ahead_eq]
    trails := .advance s
    depth := depth_advance
    scope := Heeds.scope_advance s
    names := fun _ => names_advance
    types := fun i n made found _ => by
      rw [nodes_advance] at found
      exact absurd (Array.getElem?_eq_some_iff.mp found).1 (Nat.not_lt.mpr made) }

/-- Parentheses around what was read. -/
theorem parens (opens : s.token.kind = .leftParen) (inner : Passage steady s.advance s₁)
    (closes : s₁.token.kind = .rightParen) : Passage steady s s₁.advance := by
  have more : s.token.kind ≠ .eof := by rw [opens]; decide
  have more' : s₁.token.kind ≠ .eof := by rw [closes]; decide
  have tokens : s₁.tokens = s.tokens := inner.tokens.trans tokens_advance
  have place := inner.place_le
  rw [place_advance more] at place
  exact {
    clean := errors_advance.symm.trans inner.clean
    tokens := tokens_advance.trans tokens
    place_le := by rw [place_advance more']; omega
    nodes := by
      rw [nodes_advance]
      have nodes := inner.nodes
      rwa [nodes_advance] at nodes
    paired := fun legible => by
      obtain ⟨ts, paired, ahead⟩ := inner.paired (tokens_advance.symm ▸ legible)
      refine ⟨s.token :: (ts ++ [s₁.token]), .pair opens closes paired .nil, ?_⟩
      rw [tokens_ahead_eq, ← tokens_ahead_advance (tokens_ahead_eq s) more, ahead,
        tokens_ahead_eq s₁, ← tokens_ahead_advance (tokens_ahead_eq s₁) more']
      simp
    trails := by
      refine .trans (.advance s) (.trans inner.trails (.advance s₁) inner.tokens inner.place_le ?_)
        tokens_advance ?_ ?_
      all_goals simp only [place_advance more, place_advance more']; omega
    depth := depth_advance.trans (inner.depth.trans depth_advance)
    scope := (Heeds.scope_advance s₁).trans (inner.scope.trans (Heeds.scope_advance s))
    names := fun is => names_advance.trans ((inner.names is).trans names_advance)
    types := fun i n made found type => by
      rw [nodes_advance] at found ⊢
      rw [tokens_advance]
      exact inner.types i n (nodes_advance (s := s) ▸ made) found type }

/-- A node of a new type has members. -/
theorem make {kind : NodeKind} {span : Span} {ids : List Nat} (clean : s.errors = [])
    (type : kind.isTypeDeclaration = true →
      ∃ start opening closing, Membered s.tokens (adopt s.nodes kind span ids)
        ⟨kind, span, none, ids, none, []⟩ start opening closing) :
    Passage steady s { s with nodes := adopt s.nodes kind span ids } where
  clean := clean
  tokens := rfl
  place_le := Nat.le_refl _
  nodes := adopt_develops
  paired _ := ⟨[], .nil, rfl⟩
  trails := .still rfl rfl
  depth := rfl
  scope := rfl
  names _ := rfl
  types i n made found isType := by
    have last : i = s.nodes.size := by
      have low := (Array.getElem?_eq_some_iff.mp found).1
      rw [size_adopt] at low
      omega
    subst last
    obtain rfl := Option.some.inj (found.symm.trans adopt_new)
    exact type isType

theorem push {kind : NodeKind} {span : Span} {ids : List Nat} (clean : s.errors = [])
    (other : kind.isTypeDeclaration = false) :
    Passage steady s { s with nodes := adopt s.nodes kind span ids } :=
  .make clean fun type => by rw [other] at type; cases type

theorem annotated {i : Nat} {doc : Option String} (clean : s.errors = []) :
    Passage steady s { s with nodes := annotate s.nodes i doc } where
  clean := clean
  tokens := rfl
  place_le := Nat.le_refl _
  nodes := annotate_develops
  paired _ := ⟨[], .nil, rfl⟩
  trails := .still rfl rfl
  depth := rfl
  scope := rfl
  names _ := rfl
  types k n made found _ := by
    have low := (Array.getElem?_eq_some_iff.mp found).1
    simp only [annotate, Array.size_modify] at low
    omega

/-- What is read at another depth or in another scope, both of which are restored. -/
theorem around {s₀ s' : ParserState} (inner : Passage steady s₀ s₁) (stream : s₀.stream = s.stream)
    (nodes : s₀.nodes = s.nodes) (last : s₀.last = s.last) (errors : s₀.errors = s.errors)
    (names : s₀.names = s.names) (same : s' = { s₁ with depth := s.depth, scope := s.scope }) :
    Passage steady s s' := by
  subst same
  have place : s₀.place = s.place := congrArg TokenStream.position stream
  have tokens : s₀.tokens = s.tokens := congrArg TokenStream.tokens stream
  have ahead : s₀.tokensAhead = s.tokensAhead := by
    rw [ParserState.tokensAhead, ParserState.tokensAhead, tokens, place]
  exact {
    clean := errors ▸ inner.clean
    tokens := inner.tokens.trans tokens
    place_le := place ▸ inner.place_le
    nodes := nodes ▸ inner.nodes
    paired := fun legible => ahead ▸ inner.paired (tokens ▸ legible)
    trails := (Trails.still place last).trans ⟨inner.trails.last, inner.trails.same⟩ tokens
      (Nat.le_of_eq place.symm) inner.place_le
    depth := rfl
    scope := rfl
    names := fun is => (inner.names is).trans names
    types := nodes ▸ inner.types }

end Passage

end PhpAnalyser
