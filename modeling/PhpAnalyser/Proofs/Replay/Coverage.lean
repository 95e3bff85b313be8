import PhpAnalyser.Proofs.Grammar.Outcome
import PhpAnalyser.Proofs.Replay.Unit
/-!
The members of a type cover its body: each token between the braces lies within exactly one of them,
but for close tags and for the modifiers of a constant, which lie within none.
-/
namespace PhpAnalyser

def Node.Holds (n : Node) (t : Token) : Prop :=
  n.span.start ≤ t.span.start ∧ t.span.stop ≤ n.span.stop

/-- From the place `j` on there are modifiers up to the word of a constant among some nodes. -/
def FrontsConstant (tokens : Array Token) (nodes : Array Node) (ids : List Nat) (j : Nat) : Prop :=
  ∃ k word c n, j < k ∧ (∀ l t, j ≤ l → l < k → tokens[l]? = some t → t.kind.isModifier) ∧
    tokens[k]? = some word ∧ word.kind = .keyword .const_ ∧ c ∈ ids ∧ nodes[c]? = some n ∧
      n.kind = .constantDeclaration ∧ n.span.start = word.span.start

section Order

variable {tokens : Array Token} (lexed : Lexed tokens) {i j : Nat} {a b : Token}
include lexed

theorem Lexed.start_lt (lt : i < j) (first : tokens[i]? = some a) (second : tokens[j]? = some b) :
    a.span.start < b.span.start := by
  have more := lexed.more lt (Array.getElem?_eq_some_iff.mp second).1 first
  exact Nat.lt_of_lt_of_le (lexed.extent a (Array.mem_of_getElem? first) more)
    (lexed.ordered i j a b lt first second)

theorem Lexed.place_of_start (first : tokens[i]? = some a) (second : tokens[j]? = some b)
    (same : a.span.start = b.span.start) : i = j := by
  rcases Nat.lt_trichotomy i j with lt | eq | gt
  · exact absurd same (Nat.ne_of_lt (lexed.start_lt lt first second))
  · exact eq
  · exact absurd same (Nat.ne_of_gt (lexed.start_lt gt second first))

theorem Lexed.stop_le (le : i ≤ j) (first : tokens[i]? = some a) (second : tokens[j]? = some b) :
    a.span.stop ≤ b.span.stop := by
  rcases Nat.lt_or_eq_of_le le with lt | rfl
  · exact Nat.le_trans (lexed.ordered i j a b lt first second)
      (lexed.start_le b (Array.mem_of_getElem? second))
  · rw [first] at second
    exact Option.some.inj second ▸ Nat.le_refl _

end Order

section Members

variable {tokens : Array Token} {nodes : Array Node}

/-- A member starts with its first token and stops with its last one. -/
theorem MemberAt.edges {low high i first last : Nat} (lexed : Lexed tokens)
    (member : MemberAt tokens nodes low high i first last) :
    ∃ a b n, tokens[first]? = some a ∧ tokens[last]? = some b ∧ nodes[i]? = some n ∧
      n.span.start = a.span.start ∧ n.span.stop = b.span.stop := by
  obtain ⟨a, b, n, opening, closing, found, span, -⟩ := member.spans
  refine ⟨a, b, n, opening, closing, found, ?_, ?_⟩ <;> rw [span]
  · rw [Span.start_merge]
    exact Nat.min_eq_left (lexed.start_mono member.first_le opening closing)
  · rw [Span.stop_merge]
    exact Nat.max_eq_right (lexed.stop_le member.first_le opening closing)

/-- The tokens within a member are those from its first to its last one. -/
theorem MemberAt.holds_iff {low high i first last j : Nat} {n : Node} {t : Token} (lexed : Lexed tokens)
    (member : MemberAt tokens nodes low high i first last) (found : nodes[i]? = some n)
    (here : tokens[j]? = some t) (more : t.kind ≠ .eof) : n.Holds t ↔ first ≤ j ∧ j ≤ last := by
  obtain ⟨a, b, n', opening, closing, found', start, stop⟩ := member.edges lexed
  obtain rfl := Option.some.inj (found.symm.trans found')
  have extent := lexed.extent t (Array.mem_of_getElem? here) more
  constructor
  · rintro ⟨low, high⟩
    constructor
    · by_contra before
      have := lexed.start_lt (Nat.lt_of_not_le before) here opening
      omega
    · by_contra behind
      have := lexed.ordered last j b t (Nat.lt_of_not_le behind) closing here
      omega
  · rintro ⟨low, high⟩
    have := lexed.start_mono low opening here
    have := lexed.stop_le high here closing
    exact ⟨by omega, by omega⟩

theorem Lined.le {low high : Nat} {ids : List Nat} (lined : Lined tokens nodes low high ids) :
    low ≤ high := by
  induction lined with
  | nil => exact Nat.le_refl _
  | cons member _ ih =>
    have := member.low_le
    have := member.first_le
    have := member.last_lt
    omega

/-- Each of the nodes is a member of a part of the tokens. -/
theorem Lined.member {low high c : Nat} {ids : List Nat} (lined : Lined tokens nodes low high ids)
    (inside : c ∈ ids) : ∃ l h first last, MemberAt tokens nodes l h c first last ∧ low ≤ l ∧ h ≤ high := by
  induction lined with
  | nil => cases inside
  | @cons low middle high i first last ids member rest ih =>
    have := member.low_le
    have := member.first_le
    have := member.last_lt
    rcases List.mem_cons.mp inside with rfl | inside
    · exact ⟨low, middle, first, last, member, Nat.le_refl _, rest.le⟩
    · obtain ⟨l, h, first, last, found, le, le'⟩ := ih inside
      exact ⟨l, h, first, last, found, by omega, le'⟩

/-- A place in the row belongs to one member, and all others are in front of it or behind it. -/
theorem Lined.find {low high : Nat} {ids : List Nat} (lined : Lined tokens nodes low high ids) {j : Nat}
    (le : low ≤ j) (lt : j < high) :
    ∃ c ∈ ids, ∃ l h first last, MemberAt tokens nodes l h c first last ∧ low ≤ l ∧ l ≤ j ∧ j < h ∧
      ∀ c' ∈ ids, c' = c ∨ ∃ l' h' first' last', MemberAt tokens nodes l' h' c' first' last' ∧
        (h' ≤ l ∨ h ≤ l') := by
  induction lined with
  | nil => exact absurd lt (Nat.not_lt.mpr le)
  | @cons low middle high i first last ids member rest ih =>
    by_cases here : j < middle
    · refine ⟨i, List.mem_cons_self, low, middle, first, last, member, Nat.le_refl _, le, here,
        fun c' inside => ?_⟩
      rcases List.mem_cons.mp inside with rfl | inside
      · exact .inl rfl
      · obtain ⟨l, h, first', last', found, after, -⟩ := rest.member inside
        exact .inr ⟨l, h, first', last', found, .inr after⟩
    · obtain ⟨c, there, l, h, first', last', found, after, le', lt', others⟩ :=
        ih (Nat.le_of_not_lt here) lt
      have := member.low_le
      have := member.first_le
      have := member.last_lt
      refine ⟨c, List.mem_cons_of_mem _ there, l, h, first', last', found, by omega, le', lt',
        fun c' inside => ?_⟩
      rcases List.mem_cons.mp inside with rfl | inside
      · exact .inr ⟨low, middle, first, last, member, .inl after⟩
      · exact others c' inside

theorem not_modifier_of_seal {kind : TokenKind} (seals : kind.isSeal = true) : ¬kind.isModifier := by
  cases kind <;> first | exact Bool.false_ne_true | cases seals

/-- A token in the row is within exactly one member, or it is a modifier of a constant and within
none. -/
theorem Lined.covers {low high : Nat} {ids : List Nat} (lexed : Lexed tokens)
    (lined : Lined tokens nodes low high ids) {j : Nat} {t : Token} (le : low ≤ j) (lt : j < high)
    (here : tokens[j]? = some t) (more : t.kind ≠ .eof) (solid : t.kind ≠ .closeTag) :
    (¬FrontsConstant tokens nodes ids j →
      ∃! c, c ∈ ids ∧ ∃ n, nodes[c]? = some n ∧ n.Holds t) ∧
    (FrontsConstant tokens nodes ids j → ∀ c ∈ ids, ∀ n, nodes[c]? = some n → ¬n.Holds t) := by
  obtain ⟨c, inside, l, h, first, last, member, -, le', lt', others⟩ := lined.find le lt
  have apart (c' : Nat) (there : c' ∈ ids) (other : c' ≠ c) (n : Node) (found : nodes[c']? = some n) :
      ¬n.Holds t := by
    obtain ⟨l', h', first', last', member', away⟩ := (others c' there).resolve_left other
    rw [member'.holds_iff lexed found here more]
    have := member'.low_le
    have := member'.last_lt
    omega
  obtain ⟨a, b, n, opening, closing, found, start, -⟩ := member.edges lexed
  have holds := member.holds_iff lexed found here more
  constructor
  · intro plain
    refine ⟨c, ⟨inside, n, found, holds.mpr ⟨?_, ?_⟩⟩, ?_⟩
    · by_contra before
      have before := Nat.lt_of_not_le before
      obtain ⟨a', b', n', opening', -, found', -, -, -, constant⟩ := member.spans
      obtain rfl := Option.some.inj (opening.symm.trans opening')
      obtain rfl := Option.some.inj (found.symm.trans found')
      obtain ⟨word, kind⟩ := constant (Nat.lt_of_le_of_lt le' before)
      exact plain ⟨first, a, c, n, before, fun k u low high there =>
        member.front k u (Nat.le_trans le' low) high there, opening, word, inside, found, kind, start⟩
    · by_contra behind
      exact solid (member.behind j t (Nat.lt_of_not_le behind) lt' here)
    · rintro c' ⟨there, n', found', within⟩
      by_contra other
      exact apart c' there other n' found' within
  · rintro ⟨k, word, c', n', before, modifiers, there, -, inside', found', -, start'⟩ c'' inside'' n''
      found'' within
    by_cases same : c'' = c
    · subst same
      obtain rfl := Option.some.inj (found.symm.trans found'')
      obtain ⟨low, high⟩ := holds.mp within
      rcases others c' inside' with rfl | ⟨l', h', first', last', member', away⟩
      · obtain rfl := Option.some.inj (found.symm.trans found')
        have := lexed.place_of_start opening there (start.symm.trans start')
        omega
      · obtain ⟨a', -, n₂, opening', -, found₂, start₂, -⟩ := member'.edges lexed
        obtain rfl := Option.some.inj (found'.symm.trans found₂)
        have place := lexed.place_of_start opening' there (start₂.symm.trans start')
        have := member'.low_le
        have := member'.first_le
        have := member'.last_lt
        -- the last token of the member is no modifier, so the constant is not behind it
        have size := (Array.getElem?_eq_some_iff.mp there).1
        have shut := Array.getElem?_eq_getElem (show h - 1 < tokens.size by omega)
        exact not_modifier_of_seal (member.shut _ shut) (modifiers (h - 1) _ (by omega) (by omega) shut)
    · exact apart c'' inside'' same n'' found'' within

end Members

/-- The body of a type in a tree: it is between the first opening brace behind the first token of
the type and the last token of the type. -/
structure BodyAt (tokens : Array Token) (n : Node) (opening closing : Nat) : Prop where
  lt : opening < closing
  spans : ∃ first a b z, tokens[first]? = some a ∧ tokens[opening]? = some b ∧
    tokens[closing]? = some z ∧ n.span = a.span.merge z.span ∧ b.kind = .leftBrace ∧
    z.kind = .rightBrace ∧ first ≤ opening ∧
    ∀ j u, first ≤ j → j < opening → tokens[j]? = some u → u.kind ≠ .leftBrace

/-- In an accepted text every token of the body of a type, other than a close tag, lies within
exactly one member, unless it is a modifier of a constant: these lie within none, since a constant
spans the tokens from its word on. -/
theorem body_coverage {source : String} {file : Nat} {t : SyntaxTree}
    (accepted : parse source file = .ok t) {i : Nat} {n : Node} (found : t.node? i = some n)
    (type : n.kind.isTypeDeclaration = true) :
    ∃ opening closing, BodyAt (scan source).toArray n opening closing ∧
      ∀ j u, opening < j → j < closing → (scan source)[j]? = some u → u.kind ≠ .closeTag →
        (¬FrontsConstant (scan source).toArray t.nodes n.children j →
          ∃! c, c ∈ n.children ∧ ∃ m, t.node? c = some m ∧ m.Holds u) ∧
        (FrontsConstant (scan source).toArray t.nodes n.children j →
          ∀ c ∈ n.children, ∀ m, t.node? c = some m → ¬m.Holds u) := by
  obtain ⟨ids, s, span, row, -, -, rfl⟩ := row_of_accepted accepted
  have clean : s.errors = [] := row.clean rfl
  have made : Passage false s { s with nodes := adopt s.nodes .compilationUnit span ids } :=
    .push clean rfl
  have passage := (row.passage rfl).trans made
  have tokens : s.tokens = (scan source).toArray := row.tokens.trans (tokens_initial source)
  obtain ⟨first, opening, closing, membered⟩ := passage.types i n (Nat.zero_le _) found type
  have lexed : Lexed s.tokens := tokens ▸ lexed_scan source
  obtain ⟨a, b, z, starts, opens, closes, spans, brace, brace'⟩ := membered.spans
  rw [← tokens]
  refine ⟨opening, closing, ⟨membered.body.le, first, a, b, z, starts, opens, closes, spans, brace,
    brace', membered.start_le, membered.header⟩, fun j u low high here solid => ?_⟩
  have here : s.tokens[j]? = some u := by rw [tokens, List.getElem?_toArray, here]
  have more := lexed.more high (Array.getElem?_eq_some_iff.mp closes).1 here
  exact membered.body.covers lexed low high here more solid

def constantText : String := "<?php class C { public const X = 1; }"

theorem constant_text_shown : (parse constantText 0).toOption.any (fun t =>
    (t.node? 3).any (fun n => n.kind.isTypeDeclaration && n.children == [2]) &&
    (t.node? 2).any fun m => m.kind == .constantDeclaration &&
      (scan constantText)[4]?.any fun w => w.kind == .keyword .const_ &&
        m.span.start == w.span.start) = true := by
  decide +kernel

/-- The word in front of the constant is between the only braces. -/
theorem constant_text_tokens : (∃ u, (scan constantText)[3]? = some u ∧ u.kind.isModifier = true) ∧
    ∀ j < (scan constantText).length, ∀ u ∈ (scan constantText)[j]?,
      (u.kind = .leftBrace → j < 3) ∧ (u.kind = .rightBrace → 3 < j) := by
  decide +kernel

/-- The word in front of the constant is in the body of the class, but within no member. -/
theorem body_coverage_constant : ∃ t n, parse constantText 0 = .ok t ∧ t.node? 3 = some n ∧
    n.kind.isTypeDeclaration = true ∧ FrontsConstant (scan constantText).toArray t.nodes n.children 3 ∧
    ∃ opening closing, BodyAt (scan constantText).toArray n opening closing ∧
      opening < 3 ∧ 3 < closing ∧ ∃ u, (scan constantText)[3]? = some u ∧ u.kind ≠ .closeTag ∧
        ∀ c ∈ n.children, ∀ m, t.node? c = some m → ¬m.Holds u := by
  obtain ⟨t, accepted, shown⟩ := ok_of_any constant_text_shown
  simp only [Bool.and_eq_true, Option.any_eq_true, beq_iff_eq] at shown
  obtain ⟨⟨n, found, type, children⟩, m, constant, kind, word, there, is, start⟩ := shown
  obtain ⟨⟨u, here, modifier⟩, braces⟩ := constant_text_tokens
  have fronts : FrontsConstant (scan constantText).toArray t.nodes n.children 3 := by
    refine ⟨4, word, 2, m, by decide, fun l v low high there => ?_, ?_, is, ?_, constant, kind, start⟩
    · obtain rfl : l = 3 := by omega
      rw [List.getElem?_toArray, here] at there
      exact Option.some.inj there ▸ modifier
    · rwa [List.getElem?_toArray]
    · rw [children]
      exact List.mem_singleton_self 2
  obtain ⟨opening, closing, body, cover⟩ := body_coverage accepted found type
  have around : opening < 3 ∧ 3 < closing := by
    obtain ⟨_, _, b, z, _, opens, closes, _, left, right, _⟩ := body.spans
    rw [List.getElem?_toArray] at opens closes
    exact ⟨(braces opening (List.getElem?_eq_some_iff.mp opens).1 b opens).1 left,
      (braces closing (List.getElem?_eq_some_iff.mp closes).1 z closes).2 right⟩
  have solid : u.kind ≠ .closeTag := by
    intro same
    rw [same] at modifier
    cases modifier
  exact ⟨t, n, accepted, found, type, fronts, opening, closing, body, around.1, around.2, u, here, solid,
    (cover 3 u around.1 around.2 here solid).2 fronts⟩

end PhpAnalyser
