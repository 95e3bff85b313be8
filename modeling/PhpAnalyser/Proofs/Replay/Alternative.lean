import PhpAnalyser.Proofs.Replay.Rounds
import PhpAnalyser.Proofs.Replay.Scanned
/-!
Loops and switches have the same tree in both of their forms, but for its spans.
-/
namespace PhpAnalyser

variable {β : Type} {s s' t : ParserState}

/-- The tokens between parentheses are those up to the counterpart of the first one. -/
theorem between_ends [Renumber β] {W : Overlap} {p p' : Parser β} {read : β} {o c : Token}
    {inner rest : List Token} (each : ∀ s, Replays W true true .inner p p' s)
    (run : between p s = some (.ok read, s')) (clean : s'.errors = []) (legible : Legible s.tokens)
    (ahead : s.tokensAhead = o :: (inner ++ c :: rest)) (paired : Paired inner)
    (closes : c.kind = .rightParen) : s'.tokensAhead = rest := by
  obtain ⟨u, s₀, first, run⟩ := ok_of_bind run
  obtain ⟨opens, rfl⟩ := (Replays.opens_expect.discard).own s u s₀ first
  obtain ⟨b, s₁, middle, run⟩ := ok_of_bind run
  obtain ⟨u, s₂, last, run⟩ := ok_of_bind run
  obtain ⟨closing, rfl⟩ := Replays.run_closing last
  cases run
  rw [errors_advance] at clean
  have passage := (each s.advance read s₁ middle clean).1
  obtain ⟨ts, paired', behind⟩ := passage.paired (tokens_advance.symm ▸ legible)
  have more : s.token.kind ≠ .eof := by rw [opens]; decide
  have more' : s₁.token.kind ≠ .eof := by rw [closing]; decide
  have token : s.token = o := token_of_ahead ahead
  rw [tokens_ahead_advance ahead (token ▸ more), tokens_ahead_eq s₁] at behind
  obtain rfl := paired.closing_unique paired' closes closing behind
  obtain ⟨-, tail⟩ := List.cons.inj (List.append_cancel_left behind)
  rw [tokens_ahead_advance (tokens_ahead_eq s₁) more', tail]

/-- Two readers at the same place of two texts, with the same nodes and names. -/
structure Alongside (s t : ParserState) : Prop where
  place : t.place = s.place
  nodes : t.nodes = s.nodes
  names : t.names = s.names
  scope : t.scope = s.scope
  depth_le : t.depth ≤ s.depth
  clean : t.errors = []

theorem Beside.alongside {W : Overlap} {k : Bool} (beside : Beside W k s t) (gap : W.gap = 0)
    (front : W.front = #[]) : Alongside s t where
  place := by rw [beside.place, gap, Nat.add_zero]
  nodes := by rw [beside.nodes, front, nil_behind]
  names := beside.names
  scope := beside.scope
  depth_le := beside.depth_le
  clean := beside.clean

theorem Alongside.beside {W : Overlap} {k : Bool} (alongside : Alongside s t) (gap : W.gap = 0)
    (front : W.front = #[]) (own : s.tokens = W.own) (whole : t.tokens = W.whole)
    (low : W.start ≤ s.place) (last : k = true → t.last = s.last) : Beside W k s t where
  own := own
  whole := whole
  start_le := low
  place := by rw [gap, alongside.place, Nat.add_zero]
  nodes := by rw [front, nil_behind, alongside.nodes]
  names := alongside.names
  scope := alongside.scope
  last := last
  depth_le := alongside.depth_le
  clean := alongside.clean

/-- Behind the next tokens of both texts, the first reader at least as deep. -/
theorem Alongside.advance (alongside : Alongside s t) (more : s.token.kind ≠ .eof)
    (more' : t.token.kind ≠ .eof) : Alongside s.advance t.advance where
  place := by rw [place_advance more, place_advance more', alongside.place]
  nodes := by rw [nodes_advance, nodes_advance, alongside.nodes]
  names := by rw [names_advance, names_advance, alongside.names]
  scope := by rw [Heeds.scope_advance, Heeds.scope_advance, alongside.scope]
  depth_le := by rw [depth_advance, depth_advance]; exact alongside.depth_le
  clean := errors_advance.trans alongside.clean

abbrev firstState (ts : List Token) : ParserState := (ParserState.initial (.ofTokens ts)).deeper

inductive Heading (word : Keyword) : List Token → Prop
  | intro {w o c : Token} {inner : List Token} (is : w.kind = .keyword word)
    (opens : o.kind = .leftParen) (paired : Paired inner) (closes : c.kind = .rightParen) :
    Heading word (w :: o :: (inner ++ [c]))

section Texts

variable {own whole head body us us' : List Token} {word : Keyword}

theorem first_ahead (unmarked : Unmarked own) :
    (firstState own).tokensAhead = own ++ [TokenStream.closing own] :=
  unmarked.close

/-- The place in front of the rest of a text. -/
theorem place_of_ahead (unmarked : Unmarked own) (split : own = head ++ us)
    (tokens : s.tokens = (TokenStream.close own).toArray)
    (ahead : s.tokensAhead = us ++ [TokenStream.closing own]) : s.place = head.length := by
  have low := s.place_lt
  have length := congrArg List.length ahead
  have size : s.tokens.size = head.length + us.length + 1 := by
    rw [tokens, unmarked.close, List.size_toArray, List.length_append, split, List.length_append]
    rfl
  rw [ParserState.tokensAhead, List.length_drop, Array.length_toList, size, List.length_append,
    List.length_singleton] at length
  omega

variable [Renumber β] {p p' : Parser β} (each : ∀ W s, Replays W true true .inner p p' s)
  (still : ∀ a : β, Renumber.shift 0 a = a) (unmarked : Unmarked own) (unmarked' : Unmarked whole)
  (split : own = head ++ us) (split' : whole = head ++ us') (heading : Heading word head)
  (legible : Legible (TokenStream.close own).toArray)

include each split unmarked heading legible in
/-- What is read between the parentheses of a heading ends where the heading does. -/
theorem heading_ends {read : β} (run : between p (firstState own).advance = some (.ok read, s))
    (clean : s.errors = []) :
    s.tokens = (TokenStream.close own).toArray ∧ s.place = head.length := by
  have tokens : s.tokens = (TokenStream.close own).toArray := by
    have passage := (Replays.between (W := .blank true) (k := true) (each _ _)).passage read s run clean
    exact passage.tokens.trans tokens_advance
  refine ⟨tokens, place_of_ahead unmarked split tokens ?_⟩
  obtain @⟨w, o, c, inner, is, opens, paired, closes⟩ := heading
  have shape (e : Token) : own ++ [e] = w :: o :: (inner ++ c :: (us ++ [e])) := by
    rw [split]
    simp
  have ahead := tokens_ahead_advance ((first_ahead unmarked).trans (shape _)) (by rw [is]; exact nofun)
  exact between_ends (each (.blank true)) run clean (by rwa [tokens_advance]) ahead paired closes

include each still unmarked unmarked' split split' heading in
/-- What stands in a heading is read in both texts alike. -/
theorem heading_replayed {read : β} (bare : ∀ t, us.head? = some t ∨ us'.head? = some t → t.kind.resumes = false)
    (run : between p (firstState own).advance = some (.ok read, s)) (clean : s.errors = [])
    (place : s.place = head.length) :
    (∃ t, between p' (firstState whole).advance = some (.ok read, t) ∧
      t.tokens = (TokenStream.close whole).toArray ∧ Alongside s t) ∨
    between p' (firstState whole).advance = none := by
  obtain @⟨w, o, c, inner, is, opens, paired, closes⟩ := heading
  have seals (t : Token) (last : (w :: o :: (inner ++ [c])).getLast? = some t) : t.kind.isSeal = true := by
    have same : (w :: o :: inner ++ [c]).getLast? = some c := List.getLast?_concat
    obtain rfl := Option.some.inj (last.symm.trans same)
    rw [closes]
    rfl
  have whole_ : own = [] ++ ((w :: o :: (inner ++ [c])) ++ us) := split
  have whole_' : whole = [] ++ ((w :: o :: (inner ++ [c])) ++ us') := split'
  let W : Overlap := .amid true unmarked unmarked' whole_ whole_' rfl seals bare
  have ahead : (firstState own).tokensAhead =
      w :: (o :: (inner ++ [c]) ++ us ++ [TokenStream.closing own]) := by
    rw [first_ahead unmarked]
    exact congrArg (· ++ _) split
  have first : (firstState own).token = w := token_of_ahead ahead
  have more : (firstState own).token.kind ≠ .eof := by rw [first, is]; exact nofun
  have beside : Beside W true (firstState own) (firstState whole) :=
    ⟨rfl, rfl, Nat.le_refl _, rfl, (nil_behind _).symm, rfl, rfl, fun _ => rfl, Nat.le_refl _, rfl⟩
  have stop : W.stop = (w :: o :: (inner ++ [c])).length := Nat.zero_add _
  have size : 2 < W.stop := by
    rw [stop]
    simp
  have enters : (firstState own).advance.place < W.stop := by
    rw [place_advance more]
    exact Nat.lt_trans (Nat.lt_succ_self 1) size
  obtain ⟨-, -, follows⟩ := Replays.between (k := true) (each W _) read s run clean
  rcases follows _ (beside.advance (Nat.lt_trans (Nat.zero_lt_succ 1) size)) enters
    (Nat.le_of_eq (place.trans stop.symm)) with ⟨t, again, beside'⟩ | ⟨stuck, -⟩
  · have same : W.shift read = read := still read
    rw [same] at again
    exact .inl ⟨t, again, beside'.whole, beside'.alongside rfl rfl⟩
  · exact .inr stuck

/-- What stands in both texts behind openings of the same length is read alike. -/
theorem body_replayed {own whole xs xs' body us us' : List Token} {p q : Parser (List Nat)}
    {edge beyond : Token → Prop} {ids : List Nat} {c e : Token}
    (each : ∀ W : Overlap, (∀ t, W.own[W.stop]? = some t ∨ W.whole[W.stop + W.gap]? = some t → edge t) →
      Until W false p q beyond)
    (unmarked : Unmarked own) (unmarked' : Unmarked whole) (split : own = xs ++ (body ++ us))
    (split' : whole = xs' ++ (body ++ us')) (same : xs'.length = xs.length)
    (next : us.head? = some c) (next' : us'.head? = some e) (edges : ∀ t, t = c ∨ t = e → edge t)
    (bare : ∀ t, t = c ∨ t = e → t.kind.resumes = false) (ends : beyond e)
    (run : p s = some (.ok ids, s')) (clean : s'.errors = [])
    (own_ : s.tokens = (TokenStream.close own).toArray) (place : s.place = xs.length)
    (stop : s'.place = xs.length + body.length) (alongside : Alongside s t)
    (whole_ : t.tokens = (TokenStream.close whole).toArray) :
    (∃ t', q t = some (.ok ids, t') ∧ t'.tokens = (TokenStream.close whole).toArray ∧
      t'.place = xs'.length + body.length ∧ Alongside s' t') ∨ q t = none := by
  obtain ⟨-, tokens, seals, -⟩ := each (.blank true) (fun t found => by
    rcases found with none | none <;> cases none) s ids s' run clean
  have one (t : Token) (found : us.head? = some t ∨ us'.head? = some t) : t = c ∨ t = e :=
    found.imp (fun here => Option.some.inj (here.symm.trans next))
      fun there => Option.some.inj (there.symm.trans next')
  let W : Overlap := .amid true unmarked unmarked' split split' same
    (fun _ => unmarked.seals split seals (tokens.trans own_) place stop) fun t found => bare t (one t found)
  have marked (t : Token) (found : W.own[W.stop]? = some t ∨ W.whole[W.stop + W.gap]? = some t) : edge t := by
    refine edges t ?_
    rcases found with here | there
    · rcases unmarked.edge split here with found | ⟨none, -⟩
      · exact one t (.inl found)
      · rw [none] at next
        cases next
    · have there : (TokenStream.close whole).toArray[xs'.length + body.length]? = some t := same ▸ there
      rcases unmarked'.edge split' there with found | ⟨none, -⟩
      · exact one t (.inr found)
      · rw [none] at next'
        cases next'
  obtain ⟨-, -, -, follows⟩ := each W marked s ids s' run clean
  have token (t' : ParserState) (beside : Beside W false s' t') : t'.token = e := by
    have split'' : whole = (xs' ++ body) ++ us' := by rw [split', List.append_assoc]
    refine unmarked'.token split'' beside.whole ?_ next'
    rw [beside.place, stop, List.length_append, same]
    exact Nat.add_zero _
  have beside : Beside W false s t :=
    alongside.beside rfl rfl own_ whole_ (Nat.le_of_eq place.symm) nofun
  rcases follows t beside (Nat.le_of_eq stop) fun t' beside' => token t' beside' ▸ ends with
    ⟨t', again, beside'⟩ | ⟨stuck, -⟩
  · have still : W.shift ids = ids := List.map_id'' (fun _ => rfl) ids
    rw [still] at again
    refine .inl ⟨t', again, beside'.whole, ?_, beside'.alongside rfl rfl⟩
    rw [beside'.place, stop, same]
    exact Nat.add_zero _
  · exact .inr stuck

end Texts

/-- A file that consists of one statement, which takes all tokens, and its tree. -/
structure OneStatement (ts : List Token) (file : Nat) (t : SyntaxTree) : Prop where
  accepted : parseTokens (.ofTokens ts) file = .ok t
  child : ∃ i, t.children t.root = [i]
  whole : ∃ i s, Parser.outermost.statement (.initial (.ofTokens ts)) = some (.ok (some i), s) ∧
    s.errors = [] ∧ s.token.kind = .eof

def outer : Nested := Parser.nestedAt (Parser.maxNesting - 1)

section Files

variable {ts : List Token} {word : Keyword} {file : Nat} (is : (firstState ts).token.kind = .keyword word)
include is

theorem outermost_run : Parser.outermost.statement (.initial (.ofTokens ts)) =
    ((some <$> Parser.keywordStatement outer word) (firstState ts)).bind fun out =>
      some (out.1, out.2.shallower) := by
  change Parser.nested (Parser.statement outer) _ = _
  have low : ¬(firstState ts).depth > Parser.maxNesting := by
    change ¬1 > Parser.maxNesting
    decide
  rw [nested_run, if_neg low, Replays.restoring_run]
  exact congrArg (fun out : Option (Except ParseError (Option Nat) × ParserState) => out.bind fun out =>
    some (out.1, out.2.shallower)) (statement_word is)

variable (other : word ≠ .namespace_) (other' : word ≠ .use_)
include other other'

theorem file_item_run : fileItem (.initial (.ofTokens ts)) =
    (do return (← Parser.outermost.statement).toList : Parser (List Nat)) (.initial (.ofTokens ts)) := by
  have is : (ParserState.initial (.ofTokens ts)).token.kind = .keyword word := is
  have size : (ParserState.initial (.ofTokens ts)).stream.remaining = (TokenStream.close ts).length - 1 + 1 := by
    have some := List.length_pos_iff.mpr (TokenStream.close_ne_nil ts)
    change (TokenStream.close ts).toArray.size - 0 = _
    simp only [List.size_toArray]
    omega
  change Parser.topStatement (ParserState.initial (.ofTokens ts)).stream.remaining _ = _
  rw [size, Parser.topStatement, run_current, run_ahead, is]
  simp only [TokenKind.keyword.injEq, other, other', decide_false, Bool.false_and, if_false]
  rfl

variable (file) in
/-- A statement that takes all tokens is the only one of its file. -/
theorem accepted_of_statement {s : ParserState} {i : Nat}
    (run : Parser.outermost.statement (.initial (.ofTokens ts)) = some (.ok (some i), s))
    (clean : s.errors = []) (ends : s.token.kind = .eof) (made : i < s.nodes.size) :
    ∃ span, parseTokens (.ofTokens ts) file = .ok (unit file s.nodes span [i]) := by
  have item : fileItem (.initial (.ofTokens ts)) = some (.ok [i], s) := by
    rw [file_item_run is other other']
    exact bind_run run rfl
  have passage := (fileItem_inner (W := .blank false) (k := true) rfl).passage _ _ item clean
  have moves := Replays.topStatement_moves _ _ _ item clean
  have more : (ParserState.initial (.ofTokens ts)).token.kind ≠ .eof := by
    change (firstState ts).token.kind ≠ .eof
    rw [is]
    exact nofun
  have row : FileRow (.initial (.ofTokens ts)) ([i] ++ []) s :=
    .cons ⟨more, rfl, item, moves, passage.tokens, clean⟩ (.nil s)
  exact accepted_of_row row ends (by simpa using made)

/-- Tokens of texts are read to an end. -/
theorem statement_total (scanned : Scanned ts) :
    Parser.keywordStatement outer word (firstState ts) ≠ none := by
  intro stuck
  have outermost : Parser.outermost.statement (.initial (.ofTokens ts)) = none := by
    rw [outermost_run is, ← bind_pure_comp, run_bind, stuck]
    rfl
  have item : fileItem (.initial (.ofTokens ts)) = none := by
    rw [file_item_run is other other', run_bind, outermost]
  have more : (ParserState.initial (.ofTokens ts)).token.kind ≠ .eof := by
    change (firstState ts).token.kind ≠ .eof
    rw [is]
    exact nofun
  have items : Parser.recovering (fun _ => false) fileItem (.initial (.ofTokens ts)) = none := by
    change Parser.iterate (listStep (fun _ => false) fileItem) (_ + 1) [] _ = none
    rw [Parser.iterate, run_bind, list_step_run more rfl, item]
  refine scanned.total ?_
  change (Parser.recovering (fun _ => false) fileItem >>= fun ids =>
    Parser.hull ids >>= fun span => Parser.push .compilationUnit span ids) _ = none
  rw [run_bind, items]

/-- What the first statement of a file of one statement is read as. -/
theorem OneStatement.run {a : SyntaxTree} (one : OneStatement ts file a) :
    ∃ i s, Parser.keywordStatement outer word (firstState ts) = some (.ok i, s) ∧ s.errors = [] ∧
      s.token.kind = .eof ∧ (i < s.nodes.size → ∃ span, a = unit file s.nodes span [i]) := by
  obtain ⟨i, s', run, clean, ends⟩ := one.whole
  have first := run
  rw [outermost_run is] at run
  obtain ⟨⟨result, s⟩, read, same⟩ := Option.bind_eq_some_iff.mp run
  cases same
  obtain ⟨k, read, same⟩ := map_ok read
  cases same
  refine ⟨i, s, read, clean, ends, fun made => ?_⟩
  obtain ⟨span, accepted⟩ := accepted_of_statement file is other other' first clean ends made
  exact ⟨span, Except.ok.inj (one.accepted.symm.trans accepted)⟩

/-- A file whose first statement takes all tokens. -/
theorem one_of_run {i : Nat} (run : Parser.keywordStatement outer word (firstState ts) = some (.ok i, s))
    (clean : s.errors = []) (ends : s.token.kind = .eof) (made : i < s.nodes.size) :
    ∃ span, OneStatement ts file (unit file s.nodes span [i]) := by
  have first : Parser.outermost.statement (.initial (.ofTokens ts)) = some (.ok (some i), s.shallower) := by
    rw [outermost_run is, map_run run]
    rfl
  obtain ⟨span, accepted⟩ := accepted_of_statement file is other other' first clean ends made
  exact ⟨span, accepted, ⟨i, unit_children⟩, i, s.shallower, first, clean, ends⟩

/-- A file that ends with a brace and has one statement that leaves a node has no other one. -/
theorem one_of_child {a : SyntaxTree} (accepted : parseTokens (.ofTokens ts) file = .ok a)
    (child : ∃ i, a.children a.root = [i]) (unmarked : Unmarked ts) {t : Token}
    (last : ts.getLast? = some t) (brace : t.kind = .rightBrace) : OneStatement ts file a := by
  have tree := accepted
  obtain ⟨ids, s, span, row, ends, -, rfl⟩ := row_of_accepted accepted
  have alone := child
  obtain ⟨i, one⟩ := child
  rw [unit_children] at one
  cases row with
  | nil => cases one
  | @cons _ s₁ _ found more first rest =>
    have run := first.run
    rw [file_item_run is other other'] at run
    obtain ⟨r, s₂, read, same⟩ := ok_of_bind run
    cases same
    obtain ⟨k, rfl⟩ : ∃ k, r = some k := by
      have made := read
      rw [outermost_run is] at made
      obtain ⟨⟨result, s₂⟩, inner, same⟩ := Option.bind_eq_some_iff.mp made
      cases same
      obtain ⟨k, -, rfl⟩ := map_ok inner
      exact ⟨k, rfl⟩
    obtain ⟨-, none⟩ := List.cons.inj one
    rcases FileRow.marked rest none with rfl | marked
    · exact ⟨tree, alone, k, s, read, first.clean, ends⟩
    · have tokens : s.tokens = (TokenStream.close ts).toArray := rest.tokens.trans first.tokens
      have some := List.length_pos_iff.mpr (List.ne_nil_of_mem (List.mem_of_getLast? last))
      have mark := marked t <| by
        rw [tokens, unmarked.place tokens ends, unmarked.close, List.getElem?_toArray,
          List.getElem?_append_left (Nat.sub_one_lt (Nat.ne_of_gt some))]
        exact List.getLast?_eq_getElem?.symm.trans last
      rw [brace] at mark
      rcases mark with no | no <;> cases no

end Files

structure SyntaxTree.Alike (a b : SyntaxTree) : Prop where
  root : a.root = b.root
  nodes : a.nodes.map Node.unplaced = b.nodes.map Node.unplaced

theorem SyntaxTree.Alike.symm {a b : SyntaxTree} (alike : a.Alike b) : b.Alike a :=
  ⟨alike.root.symm, alike.nodes.symm⟩

theorem unit_alike {file : Nat} {nodes nodes' : Array Node} {span span' : Span} {ids : List Nat}
    (same : nodes.map Node.unplaced = nodes'.map Node.unplaced) :
    (unit file nodes span ids).Alike (unit file nodes' span' ids) where
  root := by
    have size := congrArg Array.size same
    rwa [Array.size_map, Array.size_map] at size
  nodes := by rw [adopt_unplaced, adopt_unplaced, same]

section Control

variable {own whole head us us' : List Token} {word : Keyword} {p : Parser β}
  {rest : Span → β → Parser Nat} {file : Nat} {a : SyntaxTree}

structure Control [Renumber β] (word : Keyword) (p : Parser β) (rest : Span → β → Parser Nat) : Prop where
  shape : Parser.keywordStatement outer word = (do
    let start ← Parser.advance
    let read ← between p
    rest start.span read)
  each : ∀ W s, Replays W true true .inner p p s
  still : ∀ b : β, Renumber.shift 0 b = b
  clean : ∀ start read s i s', rest start read s = some (.ok i, s') → s'.errors = [] → s.errors = []
  other : word ≠ .namespace_
  other' : word ≠ .use_

structure Opened (rest : Span → β → Parser Nat) (own whole head : List Token) (file : Nat)
    (a : SyntaxTree) (start : Span) (read : β) (s s' t : ParserState) (i : Nat) : Prop where
  run : rest start read s = some (.ok i, s')
  clean : s'.errors = []
  ends : s'.token.kind = .eof
  tree : i < s'.nodes.size → ∃ span, a = unit file s'.nodes span [i]
  tokens : s.tokens = (TokenStream.close own).toArray
  tokens' : t.tokens = (TokenStream.close whole).toArray
  place : s.place = head.length
  alongside : Alongside s t
  total : rest start read t ≠ none
  accepted : ∀ j t', rest start read t = some (.ok j, t') → t'.errors = [] → t'.token.kind = .eof →
    j < t'.nodes.size → ∃ span, OneStatement whole file (unit file t'.nodes span [j])

theorem Heading.token (heading : Heading word head) (unmarked : Unmarked own) (split : own = head ++ us) :
    ∃ w ∈ head.head?, w.kind = .keyword word ∧ (firstState own).token = w := by
  obtain @⟨w, o, c, inner, is, -, -, -⟩ := heading
  have first : own.head? = some w := by rw [split]; rfl
  exact ⟨w, rfl, is, unmarked.token (show own = [] ++ own from rfl) rfl rfl first⟩

theorem Control.opened [Renumber β] (control : Control word p rest) (heading : Heading word head)
    (scanned : Scanned own) (scanned' : Scanned whole) (split : own = head ++ us)
    (split' : whole = head ++ us')
    (bare : ∀ t, us.head? = some t ∨ us'.head? = some t → t.kind.resumes = false)
    (one : OneStatement own file a) :
    ∃ start read s s' t i, Opened rest own whole head file a start read s s' t i := by
  obtain ⟨w, member, is, first⟩ := heading.token scanned.unmarked split
  obtain ⟨w', member', -, first'⟩ := heading.token scanned'.unmarked split'
  obtain rfl := Option.some.inj (member.symm.trans member')
  have word' : (firstState whole).token.kind = .keyword word := first' ▸ is
  obtain ⟨i, s', run, clean, ends, tree⟩ := one.run (first ▸ is) control.other control.other'
  rw [control.shape] at run
  obtain ⟨start, s₀, taken, run⟩ := ok_of_bind run
  cases taken
  obtain ⟨read, s, between, run⟩ := ok_of_bind run
  have clean₁ := control.clean _ read s i s' run clean
  obtain ⟨tokens, place⟩ := heading_ends control.each scanned.unmarked split heading scanned.legible between clean₁
  have total := statement_total word' control.other control.other' scanned'
  rw [control.shape] at total
  have taken : Parser.advance (firstState whole) = some (.ok w, (firstState whole).advance) := first' ▸ rfl
  rcases heading_replayed control.each control.still scanned.unmarked scanned'.unmarked split split' heading bare
    between clean₁ place with ⟨t, again, tokens', alongside⟩ | stuck
  · have runs : Parser.keywordStatement outer word (firstState whole) = rest w.span read t := by
      rw [control.shape]
      exact bind_run taken (bind_run again rfl)
    have run : rest (firstState own).token.span read s = some (.ok i, s') := run
    refine ⟨w.span, read, s, s', t, i, first ▸ run, clean, ends, tree, tokens, tokens', place, alongside,
      ?_, fun j t' run' clean' ends' made => ?_⟩
    · rw [← runs, control.shape]
      exact total
    · exact one_of_run word' control.other control.other' (runs.trans run') clean' ends' made
  · rw [bind_run taken rfl, run_bind, stuck] at total
    exact absurd rfl total

end Control

/-- What follows a heading: a body in braces, or, as the alternative, between a colon and the word
that ends it. -/
inductive Form (ending : Keyword) (body : List Token) : Bool → List Token → Prop
  | braces {o c : Token} (opens : o.kind = .leftBrace) (closes : c.kind = .rightBrace) :
    Form ending body false (o :: (body ++ [c]))
  | listed {o e c : Token} (opens : o.kind = .colon) (word : e.kind = .keyword ending)
    (closes : c.kind = .semicolon) : Form ending body true (o :: (body ++ [e, c]))

def endKind (ending : Keyword) (alternate : Bool) : TokenKind :=
  if alternate then .keyword ending else .rightBrace

section Forms

variable {γ : Type} [Renumber γ] {word ending : Keyword} {head body us us' : List Token} {file : Nat}
  {a : SyntaxTree}

/-- The tokens of a form: an opening, the body and what ends it. -/
theorem Form.split {alternate : Bool} (form : Form ending body alternate us) : ∃ o e rest,
    us = o :: (body ++ e :: rest) ∧ o.kind = switchStart alternate ∧
      e.kind = endKind ending alternate ∧
      (e :: rest).length = (if alternate then 2 else 1) ∧
      (alternate = true → ∀ c ∈ rest, c.kind = .semicolon) := by
  cases form with
  | @braces o c opens closes => exact ⟨o, c, [], rfl, opens, closes, rfl, nofun⟩
  | @listed o e c opens word closes =>
    exact ⟨o, e, [c], rfl, opens, word, rfl, fun _ t member => List.mem_singleton.mp member ▸ closes⟩

theorem Form.bare {alternate alternate' : Bool} (form : Form ending body alternate us)
    (form' : Form ending body alternate' us') (t : Token)
    (first : us.head? = some t ∨ us'.head? = some t) : t.kind.resumes = false := by
  have one {alternate : Bool} {us : List Token} (form : Form ending body alternate us)
      (first : us.head? = some t) : t.kind.resumes = false := by
    obtain ⟨o, e, rest, rfl, opens, -⟩ := form.split
    obtain rfl := Option.some.inj first
    rw [opens]
    cases alternate <;> rfl
  exact first.elim (one form) (one form')

theorem Unmarked.ends {ts : List Token} (unmarked : Unmarked ts)
    (tokens : s.tokens = (TokenStream.close ts).toArray) (place : s.place = ts.length) :
    s.token.kind = .eof := by
  have here := s.token_at
  have split : ts = ts ++ ([] ++ []) := by simp
  rw [tokens, place] at here
  rcases unmarked.edge split here with none | ⟨-, ends⟩
  · cases none
  · exact ends

theorem Form.length {alternate : Bool} (form : Form ending body alternate us) :
    (head ++ us).length = head.length + 1 + body.length + (if alternate then 2 else 1) := by
  obtain ⟨o, e, rest, rfl, -, -, length, -⟩ := form.split
  rw [List.length_append, List.length_cons, List.length_append, length]
  omega

section Place

variable {alternate : Bool} (form : Form ending body alternate us) (unmarked : Unmarked (head ++ us))
  (tokens : t.tokens = (TokenStream.close (head ++ us)).toArray)
include form unmarked tokens

theorem Form.opening (place : t.place = head.length) : t.token.kind = switchStart alternate := by
  obtain ⟨o, e, rest, rfl, opens, -⟩ := form.split
  rw [unmarked.token rfl tokens place rfl, opens]

/-- Behind the body of a form stands what ends it, and nothing else. -/
theorem Form.ends (place : t.place = head.length + 1 + body.length) :
    t.token.kind = endKind ending alternate ∧
      (alternate = true → t.advance.token.kind = .semicolon) ∧
      (t.behindEnd alternate).token.kind = .eof := by
  obtain ⟨o, e, rest, same, -, is, length, mark⟩ := form.split
  have whole : head ++ us = (head ++ o :: body) ++ e :: rest := by rw [same]; simp
  have token : t.token = e := unmarked.token whole tokens (place.trans (by simp; omega)) rfl
  have kind := token ▸ is
  have more : t.token.kind ≠ .eof := by
    rw [kind]
    cases alternate <;> exact nofun
  have next : t.advance.place = t.place + 1 := place_advance more
  refine ⟨kind, ?_⟩
  cases alternate with
  | false =>
    refine ⟨nofun, unmarked.ends (tokens_advance.trans tokens) ?_⟩
    rw [form.length]
    change t.advance.place = _
    rw [next, place]
    rfl
  | true =>
    obtain ⟨c, rfl⟩ := List.length_eq_one_iff.mp (Nat.succ.inj length)
    have whole : head ++ us = (head ++ o :: body ++ [e]) ++ [c] := by rw [same]; simp
    have last : t.advance.token = c := unmarked.token whole (tokens_advance.trans tokens)
      (next.trans (by rw [place]; simp; omega)) rfl
    have semicolon : t.advance.token.kind = .semicolon := last ▸ mark rfl c (List.mem_singleton_self c)
    refine ⟨fun _ => semicolon, unmarked.ends (tokens_advance.trans (tokens_advance.trans tokens)) ?_⟩
    rw [form.length]
    change t.advance.advance.place = _
    rw [place_advance (by rw [semicolon]; decide), next, place]
    rfl

end Place

/-- The body is read alike in both forms. -/
theorem Form.replayed {alternate alternate' : Bool} {p q : Parser (List Nat)} (edge : Token → Prop)
    {beyond : Token → Prop} {ids : List Nat} (form : Form ending body alternate us) (form' : Form ending body alternate' us')
    (each : ∀ W : Overlap, (∀ t, W.own[W.stop]? = some t ∨ W.whole[W.stop + W.gap]? = some t → edge t) →
      Until W false p q beyond)
    (edges : ∀ t alternate, t.kind = endKind ending alternate → edge t ∧ t.kind.resumes = false)
    (ends : ∀ t, t.kind = endKind ending alternate' → beyond t)
    (unmarked : Unmarked (head ++ us)) (unmarked' : Unmarked (head ++ us'))
    (tokens : s.tokens = (TokenStream.close (head ++ us)).toArray)
    (tokens' : t.tokens = (TokenStream.close (head ++ us')).toArray) (place : s.place = head.length + 1)
    (alongside : Alongside s t) (run : p s = some (.ok ids, s')) (clean : s'.errors = [])
    (stop : s'.place = head.length + 1 + body.length) :
    (∃ t', q t = some (.ok ids, t') ∧ t'.tokens = (TokenStream.close (head ++ us')).toArray ∧
      t'.place = head.length + 1 + body.length ∧ Alongside s' t') ∨ q t = none := by
  obtain ⟨o, e, rest, same, -, is, -⟩ := form.split
  obtain ⟨o', e', rest', same', -, is', -⟩ := form'.split
  have size (o : Token) : (head ++ [o]).length = head.length + 1 := by simp
  have both (t : Token) (one : t = e ∨ t = e') : edge t ∧ t.kind.resumes = false := by
    rcases one with rfl | rfl
    · exact edges _ _ is
    · exact edges _ _ is'
  have split : head ++ us = (head ++ [o]) ++ (body ++ e :: rest) := by rw [same]; simp
  have split' : head ++ us' = (head ++ [o']) ++ (body ++ e' :: rest') := by rw [same']; simp
  have replayed := body_replayed each unmarked unmarked' split split'
    ((size o').trans (size o).symm) rfl rfl (fun t one => (both t one).1) (fun t one => (both t one).2)
    (ends e' is') run clean tokens (place.trans (size o).symm) (by rw [stop, size]) alongside tokens'
  rwa [size] at replayed

/-- No statement starts with the word that ends a loop. -/
theorem listed_begins {n : Nat} {ending : Keyword} (continues : ending.continues = true) (s : ParserState)
    (ids : List Nat) (s' : ParserState) (run : listed (Parser.nestedAt n) s = some (.ok ids, s')) :
    (s.token.kind.keyword?.any [ending].contains) = false := by
  by_contra stops
  obtain ⟨word, found, member⟩ := (Option.any_eq_true _ _).mp (by simpa using stops)
  obtain rfl : word = ending := by simpa using member
  have is : s.token.kind = .keyword word := by
    cases kind : s.token.kind <;> rw [kind] at found <;> cases found
    rfl
  obtain ⟨i, s₁, read, -⟩ := ok_of_bind run
  exact Refuses.statement continues n s is i s₁ read

/-- A loop with statements in braces is one of the alternative form as well. -/
theorem loop_alternative {loop : Loop γ} {p : Parser γ} (control : Control word p (loop.rest outer))
    (continues : loop.word.continues = true) (bare : (TokenKind.keyword loop.word).resumes = false)
    (heading : Heading word head) (form : Form loop.word body false us) (form' : Form loop.word body true us')
    (scanned : Scanned (head ++ us)) (scanned' : Scanned (head ++ us'))
    (one : OneStatement (head ++ us) file a) : ∃ b, OneStatement (head ++ us') file b ∧ a.Alike b := by
  obtain ⟨start, read, s, s', t, i, opened⟩ :=
    control.opened heading scanned scanned' rfl rfl (form.bare form') one
  have brace := form.opening scanned.unmarked opened.tokens opened.place
  have colon := form'.opening scanned'.unmarked opened.tokens' (opened.alongside.place.trans opened.place)
  obtain ⟨ids, s₁, inner, closes, made, made', rfl, tokens, place, errors, span, span', nodes⟩ :=
    loop_braces_ok (n := Parser.maxNesting - 2) brace opened.run
  have more : s.token.kind ≠ .eof := by rw [brace]; exact nofun
  have more' : t.token.kind ≠ .eof := by rw [colon]; exact nofun
  have clean : s₁.errors = [] := errors.symm.trans opened.clean
  have tracks (W : Overlap) : Tracks W (Parser.nestedAt (Parser.maxNesting - 2)) outer :=
    tracks_nested (Nat.le_succ _)
  have own : s₁.tokens = (TokenStream.close (head ++ us)).toArray :=
    ((Replays.statements (k := true) (tracks (.blank true)) _).passage ids s₁ inner clean).tokens.trans
      (tokens_advance.trans opened.tokens)
  have stop : s₁.place = head.length + 1 + body.length := by
    have whole := scanned.unmarked.place (tokens.trans own) opened.ends
    rw [form.length, place] at whole
    exact Nat.succ.inj whole
  have alongside : Alongside s.deeper.advance t.advance := Alongside.advance (s := s.deeper)
    { opened.alongside with depth_le := Nat.le_succ_of_le opened.alongside.depth_le } more more'
  have placed : s.deeper.advance.place = head.length + 1 :=
    (place_advance (s := s.deeper) more).trans (congrArg (· + 1) opened.place)
  have each (W : Overlap) : Until W false
      (Parser.statements (Parser.nestedAt (Parser.maxNesting - 2)) fun t => decide (t.kind = .rightBrace))
      (Parser.statements outer fun t => t.kind.keyword?.any [loop.word].contains)
      fun t => t.kind = .eof ∨ t.kind.keyword?.any [loop.word].contains = true :=
    statements_until (tracks W) fun s ids s' run _ => listed_begins continues s ids s' run
  rcases form.replayed (s := s.deeper.advance) (t := t.advance) (fun _ => True) form' (fun W _ => each W)
    (fun t alternate is => ⟨trivial, by rw [is]; cases alternate <;> first | rfl | exact bare⟩)
    (fun t is => .inr (by rw [is]; simp [endKind, TokenKind.keyword?]))
    scanned.unmarked scanned'.unmarked (tokens_advance.trans opened.tokens) (tokens_advance.trans opened.tokens')
    placed alongside inner clean stop with ⟨t₁, again, tokens₁, place₁, alongside₁⟩ | stuck
  · obtain ⟨word, mark, ends⟩ := form'.ends scanned'.unmarked tokens₁ place₁
    obtain ⟨t', run, stream, errors', spans, spans', nodes'⟩ := loop_listed_run start read
      colon again word (mark rfl) (alongside₁.nodes ▸ made) (alongside₁.nodes ▸ made')
    have size : t'.nodes.size = t₁.nodes.size + 2 := by rw [nodes', size_adopt, size_adopt]
    obtain ⟨span₂, one'⟩ := opened.accepted _ t' run (errors'.trans alongside₁.clean)
      (by change t'.stream.current.kind = _; rw [stream]; exact ends) (by omega)
    obtain ⟨span₁, rfl⟩ := opened.tree (by rw [nodes, size_adopt, size_adopt]; omega)
    refine ⟨_, one', ?_⟩
    rw [alongside₁.nodes]
    refine unit_alike ?_
    rw [nodes, nodes', alongside₁.nodes]
    simp only [adopt_unplaced]
  · exact absurd (loop_listed_stuck colon stuck) opened.total

/-- A switch in one of its forms is one of the other form as well. -/
theorem switch_alternative {alternate alternate' : Bool}
    (control : Control .switch_ (Parser.expression outer) (switchRest outer))
    (heading : Heading .switch_ head) (form : Form .endSwitch_ body alternate us)
    (form' : Form .endSwitch_ body alternate' us')
    (scanned : Scanned (head ++ us)) (scanned' : Scanned (head ++ us'))
    (one : OneStatement (head ++ us) file a) : ∃ b, OneStatement (head ++ us') file b ∧ a.Alike b := by
  obtain ⟨start, subject, s, s', t, i, opened⟩ :=
    control.opened heading scanned scanned' rfl rfl (form.bare form') one
  have opening := form.opening scanned.unmarked opened.tokens opened.place
  have opening' := form'.opening scanned'.unmarked opened.tokens' (opened.alongside.place.trans opened.place)
  obtain ⟨chosen, labels, s₁, starts, inner, closes, made, rfl, tokens, place, errors, span, nodes⟩ :=
    switch_ok opened.run
  obtain rfl : chosen = alternate := by
    have same := starts.symm.trans opening
    cases chosen <;> cases alternate <;> first | rfl | cases same
  have clean : s₁.errors = [] := errors.symm.trans opened.clean
  have more {alternate : Bool} {s : ParserState} (is : s.token.kind = switchStart alternate) :
      s.token.kind ≠ .eof := by
    rw [is]
    cases alternate <;> exact nofun
  have tracks (W : Overlap) : Tracks W outer outer := tracks_nested (Nat.le_refl _)
  have own : s₁.tokens = (TokenStream.close (head ++ us)).toArray :=
    ((Replays.switchBody (tracks (.blank true)) _).passage labels s₁ inner clean).tokens.trans
      (tokens_advance.trans opened.tokens)
  have stop : s₁.place = head.length + 1 + body.length := by
    have whole := scanned.unmarked.place (tokens.trans own) opened.ends
    rw [form.length, place] at whole
    exact Nat.add_right_cancel whole
  have apart {word : Keyword} (other : word ≠ .endSwitch_) : switchEnd alternate' ≠ .keyword word := by
    cases alternate' <;> simp [switchEnd, other.symm]
  rcases form.replayed (s := s.advance) (t := t.advance) (fun t => Parser.endsLabel t = true) form'
    (fun W marked => labels_until (tracks W) marked (apart (by decide)) (apart (by decide)))
    (fun t alternate is => by rw [Parser.endsLabel, is]; cases alternate <;> exact ⟨rfl, rfl⟩)
    (fun t is => is.trans (by cases alternate' <;> rfl)) scanned.unmarked scanned'.unmarked
    (tokens_advance.trans opened.tokens) (tokens_advance.trans opened.tokens')
    ((place_advance (more starts)).trans (congrArg (· + 1) opened.place))
    (opened.alongside.advance (more starts) (more opening')) inner clean stop with
    ⟨t₁, again, tokens₁, place₁, alongside₁⟩ | stuck
  · obtain ⟨word, mark, ends⟩ := form'.ends scanned'.unmarked tokens₁ place₁
    obtain ⟨t', run, stream, errors', spans, nodes'⟩ := switch_run start opening' again mark
      (alongside₁.nodes ▸ made)
    obtain ⟨span₂, one'⟩ := opened.accepted _ t' run (errors'.trans alongside₁.clean)
      (by change t'.stream.current.kind = _; rw [stream]; exact ends) (by rw [nodes', size_adopt]; omega)
    obtain ⟨span₁, rfl⟩ := opened.tree (by rw [nodes, size_adopt]; omega)
    refine ⟨_, one', ?_⟩
    rw [alongside₁.nodes]
    refine unit_alike ?_
    rw [nodes, nodes', alongside₁.nodes, adopt_unplaced, adopt_unplaced]
  · exact absurd (switch_stuck opening' stuck) opened.total

end Forms

def Keyword.ending? : Keyword → Option Keyword
  | while_ => some endWhile_
  | for_ => some endFor_
  | foreach_ => some endForeach_
  | switch_ => some endSwitch_
  | _ => none

section Controls

variable {W : Overlap}

theorem tracks_outer : Tracks W outer outer := tracks_nested (Nat.le_refl _)

theorem Loop.rest_clean {γ : Type} [Renumber γ] {loop : Loop γ} {start : Span} {read : γ} {i : Nat}
    (same : ∀ read, loop.kind (Renumber.shift 0 read) = loop.kind read)
    (shifted : ∀ read, loop.children (Renumber.shift 0 read) = Renumber.shift 0 (loop.children read))
    (other : ∀ read, (loop.kind read).isTypeDeclaration = false)
    (run : loop.rest outer start read s = some (.ok i, s')) (clean : s'.errors = []) : s.errors = [] :=
  ((Replays.loopRest (W := .blank true) tracks_outer same shifted other).passage i s' run clean).clean

theorem control_while : Control .while_ (Parser.expression outer) (Loop.while_.rest outer) where
  shape := Parser.while_statement_eq outer
  each _ _ := Replays.expression tracks_outer
  still _ := rfl
  clean _ _ _ _ _ := Loop.rest_clean (fun _ => rfl) (fun _ => rfl) fun _ => rfl
  other := by decide
  other' := by decide

theorem control_for : Control .for_ (Parser.forClauses outer) (Loop.for_.rest outer) where
  shape := Parser.for_statement_eq outer
  each _ _ := Replays.forClauses tracks_outer
  still ids := List.map_id'' (fun _ => rfl) ids
  clean _ _ _ _ _ := Loop.rest_clean (fun _ => rfl) (fun _ => rfl) fun _ => rfl
  other := by decide
  other' := by decide

theorem control_foreach : Control .foreach_ (Parser.foreachHead outer) (Loop.foreach.rest outer) where
  shape := Parser.foreach_statement_eq outer
  each _ _ := Replays.foreachHead tracks_outer
  still read := congrArg (Prod.mk read.1) (List.map_id'' (fun _ => rfl) read.2)
  clean _ _ _ _ _ := Loop.rest_clean (fun _ => rfl) (fun _ => rfl) fun _ => rfl
  other := by decide
  other' := by decide

theorem control_switch : Control .switch_ (Parser.expression outer) (switchRest outer) where
  shape := switch_statement_eq outer
  each _ _ := Replays.expression tracks_outer
  still _ := rfl
  clean _ _ _ i s' run clean :=
    ((Replays.switchRest (W := .blank true) tracks_outer).passage i s' run clean).clean
  other := by decide
  other' := by decide

end Controls

/-- A loop or a switch has the same tree in both of its forms, but for its spans. A loop or a switch
in braces that is the only statement of its file to leave a node can be written in the alternative
form, and a switch of this form that takes all tokens of its file can be written in braces. (It may
be the only one to leave a node without that: in `switch ($a): case 1: endswitch; use function
f\endswitch;` the second statement leaves none.) -/
theorem alternative_form {word ending : Keyword} (pair : word.ending? = some ending)
    {head body braced listed : List Token} (heading : Heading word head)
    (form : Form ending body false braced) (form' : Form ending body true listed)
    (scanned : Scanned (head ++ braced)) (scanned' : Scanned (head ++ listed)) (file : Nat) :
    (∀ a, parseTokens (.ofTokens (head ++ braced)) file = .ok a → (∃ i, a.children a.root = [i]) →
      ∃ b, OneStatement (head ++ listed) file b ∧ a.Alike b) ∧
    (word = .switch_ → ∀ b, OneStatement (head ++ listed) file b →
      ∃ a, OneStatement (head ++ braced) file a ∧ a.Alike b) := by
  have known : word = .while_ ∨ word = .for_ ∨ word = .foreach_ ∨ word = .switch_ := by
    revert pair
    cases word <;> simp [Keyword.ending?]
  obtain ⟨w, member, is, first⟩ := heading.token scanned.unmarked rfl
  have other : word ≠ .namespace_ ∧ word ≠ .use_ := by
    rcases known with rfl | rfl | rfl | rfl <;> decide
  refine ⟨fun a accepted child => ?_, ?_⟩
  · have one : OneStatement (head ++ braced) file a := by
      obtain @⟨o, c, opens, closes⟩ := form
      have last : (head ++ o :: (body ++ [c])).getLast? = some c := by
        rw [← List.cons_append, ← List.append_assoc]
        exact List.getLast?_concat
      exact one_of_child (first ▸ is) other.1 other.2 accepted child scanned.unmarked last closes
    rcases known with rfl | rfl | rfl | rfl <;> cases pair
    · exact loop_alternative control_while rfl rfl heading form form' scanned scanned' one
    · exact loop_alternative control_for rfl rfl heading form form' scanned scanned' one
    · exact loop_alternative control_foreach rfl rfl heading form form' scanned scanned' one
    · exact switch_alternative control_switch heading form form' scanned scanned' one
  · rintro rfl b one
    cases pair
    obtain ⟨a, one', alike⟩ := switch_alternative control_switch heading form' form scanned' scanned one
    exact ⟨a, one', alike.symm⟩

def bracedText : String := "<?php switch ($a) { case 1: f(); }"

def listedText : String := "<?php switch ($a) : case 1: f(); endswitch;"

def tokenIn (text : String) (i : Nat) : Token := (scanOpen text).getD i (TokenStream.closing [])

def switchHeading : List Token := (scanOpen bracedText).take 4

def oneLabel : List Token := ((scanOpen bracedText).drop 5).take 7

theorem switch_heading : Heading .switch_ switchHeading := by
  have opening : tokenIn bracedText 0 :: tokenIn bracedText 1 ::
        ([tokenIn bracedText 2] ++ [tokenIn bracedText 3]) = switchHeading ∧
      (tokenIn bracedText 0).kind = .keyword .switch_ ∧ (tokenIn bracedText 1).kind = .leftParen ∧
      (tokenIn bracedText 2).kind.isParen = false ∧ (tokenIn bracedText 3).kind = .rightParen := by
    decide +kernel
  obtain ⟨same, word, opens, plain, closes⟩ := opening
  exact same ▸ .intro word opens (.plain plain .nil) closes

/-- A switch in braces has its tree in the alternative form, and back. -/
theorem alternative_form_switch : ∃ a b, parseTokens (.ofTokens (scanOpen bracedText)) 0 = .ok a ∧
    OneStatement (scanOpen listedText) 0 b ∧ a.Alike b ∧
    ∃ a', OneStatement (scanOpen bracedText) 0 a' ∧ a'.Alike b := by
  obtain ⟨braced, opens, closes⟩ :
      switchHeading ++ tokenIn bracedText 4 :: (oneLabel ++ [tokenIn bracedText 12]) = scanOpen bracedText ∧
      (tokenIn bracedText 4).kind = .leftBrace ∧ (tokenIn bracedText 12).kind = .rightBrace := by
    decide +kernel
  obtain ⟨listed, opens', word, closes'⟩ : switchHeading ++
        tokenIn listedText 4 :: (oneLabel ++ [tokenIn listedText 12, tokenIn listedText 13]) =
        scanOpen listedText ∧
      (tokenIn listedText 4).kind = .colon ∧ (tokenIn listedText 12).kind = .keyword .endSwitch_ ∧
      (tokenIn listedText 13).kind = .semicolon := by
    decide +kernel
  have shows : (parseTokens (.ofTokens (scanOpen bracedText)) 0).toOption.any (fun a =>
      (a.children a.root).length == 1) = true := by decide +kernel
  obtain ⟨a, accepted, one⟩ := ok_of_any shows
  have alone : ∃ i, a.children a.root = [i] := List.length_eq_one_iff.mp (beq_iff_eq.mp one)
  obtain ⟨alternative, converse⟩ := alternative_form rfl switch_heading (.braces opens closes)
    (.listed opens' word closes') (braced ▸ scanned_open) (listed ▸ scanned_open) 0
  obtain ⟨b, second, alike⟩ := alternative a (braced ▸ accepted) alone
  obtain ⟨a', first, alike'⟩ := converse rfl b second
  exact ⟨a, b, accepted, listed ▸ second, alike, a', braced ▸ first, alike'⟩

end PhpAnalyser
