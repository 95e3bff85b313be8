import PhpAnalyser.Proofs.Depth.Unit
import PhpAnalyser.Proofs.Grammar.Yield
import PhpAnalyser.Proofs.Scope.Around
/-!
The nodes above a node of a finished tree. However long the chains of a text are, only so many of
them do more than prolong what stands below them: each level of nesting adds a few. But the nesting
guard does not bound the depth of trees as such. A loop reads the links of a chain, which are not
nested in one another, so a variable with enough indices lies below any number of nodes.
-/
namespace PhpAnalyser

namespace SyntaxTree

variable {t : SyntaxTree}

def levelsAlong (t : SyntaxTree) : Nat → List Nat → Nat
  | _, [] => 0
  | c, p :: above => (if t.Prolongs p c then 0 else 1) + t.levelsAlong p above

/-- How many of the ancestors of a node do more than prolong the node below them. -/
def levels (t : SyntaxTree) (i : Nat) : Nat := t.levelsAlong i (t.ancestors i)

theorem levels_top {i : Nat} (top : t.parent i = none) : t.levels i = 0 := by
  rw [levels, ancestors_top top, levelsAlong]

theorem Rooted.levels_child (rooted : t.Rooted) {p c : Nat} (child : c ∈ t.children p) :
    t.levels c = (if t.Prolongs p c then 0 else 1) + t.levels p := by
  rw [levels, rooted.ancestors_child child, levelsAlong, levels]

theorem child_of_shaped {tokens : Array Token} (shaped : Shaped tokens t.nodes) {p c : Nat}
    (above : t.parent c = some p) : c ∈ t.children p := by
  obtain ⟨m, found, above⟩ := Option.bind_eq_some_iff.mp above
  obtain ⟨n, there, listed⟩ := (shaped.linked c p m found).mp above
  rwa [children, node?, there]

/-- Further down, the levels above a node and its own height add up to no more. -/
theorem levels_add_height {tokens : Array Token} (shaped : Shaped tokens t.nodes) {top : Nat}
    (low : ∀ i, i < t.size → Low t top i) (i : Nat) (inside : i < t.size) :
    ∃ height, Low t height i ∧ t.levels i + height ≤ top := by
  have rooted := rooted_of_shaped shaped
  induction gap : t.size - i using Nat.strong_induction_on generalizing i with
  | h gap ih =>
    cases above : t.parent i with
    | none => exact ⟨top, low i inside, by rw [levels_top above]; omega⟩
    | some p =>
      obtain ⟨behind, there⟩ := rooted.above i p above
      have child := child_of_shaped shaped above
      obtain ⟨height, high, sum⟩ := ih (t.size - p) (by omega) p there rfl
      rw [rooted.levels_child child]
      cases high with
      | node along below =>
        by_cases prolongs : t.Prolongs p i
        · exact ⟨_, along i child prolongs, by rw [if_pos prolongs]; omega⟩
        · exact ⟨_, below i child prolongs, by rw [if_neg prolongs]; omega⟩

end SyntaxTree

/-- No node is high, nor are those that the parser made and left out of the tree. -/
theorem low_of_accepted {source : String} {file : Nat} {t : SyntaxTree}
    (accepted : parse source file = .ok t) (i : Nat) (inside : i < t.size) :
    Low t (6 * Parser.maxNesting + 2) i := by
  obtain ⟨s, run, nodes⟩ := run_of_accepted accepted
  have limits : Limits t (6 * Parser.maxNesting + 2) True Parser.compilationUnit fun _ => True :=
    .compilationUnit
  obtain ⟨-, holds⟩ := limits _ _ _ run
  refine (holds (nodes ▸ .refl _) trivial).1 i (Nat.zero_le _) ?_
  rw [← nodes]
  exact inside

/-- The nesting guard bounds how deep a node lies, not counting the nodes that a loop puts around
what it has read, and variable variables and namespaces in one another. -/
theorem levels_bounded {source : String} {file : Nat} {t : SyntaxTree}
    (accepted : parse source file = .ok t) (i : Nat) : t.levels i ≤ 6 * Parser.maxNesting + 1 := by
  obtain ⟨s, nodes, complete, -⟩ := complete_of_accepted accepted
  have shaped := complete.shaped
  rw [← nodes] at shaped
  rcases Nat.lt_or_ge i t.size with inside | outside
  · obtain ⟨height, low, sum⟩ :=
      SyntaxTree.levels_add_height shaped (low_of_accepted accepted) i inside
    cases low
    omega
  · have top : t.parent i = none := by
      rw [SyntaxTree.parent, SyntaxTree.node?, Array.getElem?_eq_none outside]
      rfl
    rw [SyntaxTree.levels_top top]
    exact Nat.zero_le _

/-- The indices of `$a` prolong one another; what is around the assignment does not. -/
theorem levels_bounded_indices : ∃ t, parse "<?php $a[$b[]][] = 1;" 0 = .ok t ∧
    t.ancestors 0 = [3, 4, 6, 7, 8] ∧ t.levels 0 = 3 ∧ t.levels 0 ≤ 6 * Parser.maxNesting + 1 := by
  have shows : (parse "<?php $a[$b[]][] = 1;" 0).toOption.any (fun t =>
      t.ancestors 0 = [3, 4, 6, 7, 8] ∧ t.levels 0 = 3) = true := by decide +kernel
  cases accepted : parse "<?php $a[$b[]][] = 1;" 0 with
  | error errors =>
    rw [accepted] at shows
    cases shows
  | ok t =>
    rw [accepted] at shows
    obtain ⟨above, levels⟩ := of_decide_eq_true shows
    exact ⟨t, rfl, above, levels, levels_bounded accepted 0⟩

def Piece.token? (piece : Piece) : Option TokenKind :=
  match piece.kind with
  | .trivia _ => none
  | .token kind => some kind

theorem kinds_assemble (place : Cursor) (waiting : List Trivia) (rest : List Piece) :
    (assemble place waiting rest).map (·.kind) = rest.filterMap Piece.token? ++ [.eof] := by
  induction rest generalizing place waiting with
  | nil => rfl
  | cons piece rest ih =>
    rw [assemble, List.filterMap_cons, Piece.token?]
    cases piece.kind with
    | trivia kind => exact ih _ _
    | token kind => exact congrArg (kind :: ·) (ih _ _)

def brackets (n : Nat) : List Char := (List.replicate n ['[', ']']).flatten

def bracketKinds (n : Nat) : List TokenKind :=
  (List.replicate n [.leftBracket, .rightBracket]).flatten

def indexed (n : Nat) : String :=
  String.ofList (['<', '?', 'p', 'h', 'p', ' ', '$', 'a'] ++ (brackets n ++ [';']))

theorem pieces_brackets (n : Nat) :
    (pieces true (brackets n ++ [';'])).filterMap Piece.token? = bracketKinds n ++ [.semicolon] := by
  induction n with
  | zero =>
    rw [show brackets 0 ++ [';'] = [';'] from rfl, pieces, pieces.eq_def]
    rfl
  | succ n ih =>
    have opens (rest : List Char) : pieces true ('[' :: rest) =
        ⟨.token .leftBracket, ['[']⟩ :: pieces true rest := by
      rw [pieces]
      rfl
    have closes (rest : List Char) : pieces true (']' :: rest) =
        ⟨.token .rightBracket, [']']⟩ :: pieces true rest := by
      rw [pieces]
      rfl
    change (pieces true ('[' :: ']' :: (brackets n ++ [';']))).filterMap Piece.token? = _
    rw [opens, closes]
    exact congrArg (fun kinds => TokenKind.leftBracket :: .rightBracket :: kinds) ih

theorem kinds_indexed (n : Nat) :
    (scan (indexed n)).map (·.kind) = .variable :: (bracketKinds n ++ [.semicolon, .eof]) := by
  have tag (rest : List Char) : Lexeme.shapeOf false '<' ('?' :: 'p' :: 'h' :: 'p' :: rest) =
      .trivia .openTag 4 := by
    have long : asciiLower (String.ofList ['p', 'h', 'p']) = "php" := by decide
    simp [Lexeme.shapeOf, startsWith, long]
  have opens (rest : List Char) :
      pieces false ('<' :: '?' :: 'p' :: 'h' :: 'p' :: ' ' :: '$' :: rest) =
      ⟨.trivia .openTag, ['<', '?', 'p', 'h', 'p']⟩ :: ⟨.trivia .whitespace, [' ']⟩ ::
        pieces true ('$' :: rest) := by
    rw [pieces, tag]
    refine congrArg (_ :: ·) ?_
    change pieces true (' ' :: '$' :: rest) = _
    rw [pieces]
    rfl
  have name : pieces true ('$' :: 'a' :: (brackets n ++ [';'])) =
      ⟨.token .variable, ['$', 'a']⟩ :: pieces true (brackets n ++ [';']) := by
    rw [pieces]
    cases n <;> rfl
  rw [scan, kinds_assemble, indexed, String.toList_ofList]
  simp only [List.cons_append, List.nil_append]
  rw [opens, name]
  have kinds (rest : List Piece) :
      List.filterMap Piece.token? (⟨.trivia .openTag, ['<', '?', 'p', 'h', 'p']⟩ ::
        ⟨.trivia .whitespace, [' ']⟩ :: ⟨.token .variable, ['$', 'a']⟩ :: rest) =
      .variable :: rest.filterMap Piece.token? := rfl
  rw [kinds, pieces_brackets, List.cons_append, List.append_assoc]
  rfl

inductive Tall (nodes : Array Node) : Nat → Nat → Prop
  | here (i : Nat) : Tall nodes 0 i
  | above {height p c : Nat} {n : Node} (found : nodes[p]? = some n) (child : c ∈ n.children)
      (tall : Tall nodes height c) : Tall nodes (height + 1) p

theorem Tall.develops {nodes nodes' : Array Node} (develops : Develops nodes nodes') {height i : Nat}
    (tall : Tall nodes height i) : Tall nodes' height i := by
  induction tall with
  | here i => exact .here i
  | above found child _ ih =>
    obtain ⟨n, there, -, -, children⟩ := develops _ _ found
    exact .above there (children ▸ child) ih

/-- At the foot of a tower. -/
theorem SyntaxTree.Rooted.depth_of_tall {t : SyntaxTree} (rooted : t.Rooted) {height i : Nat}
    (tall : Tall t.nodes height i) :
    ∃ foot, height + (t.ancestors i).length ≤ (t.ancestors foot).length := by
  induction tall with
  | here i => exact ⟨i, by omega⟩
  | @above height p c n found child _ ih =>
    obtain ⟨foot, le⟩ := ih
    have listed : c ∈ t.children p := by rwa [SyntaxTree.children, SyntaxTree.node?, found]
    rw [rooted.ancestors_child listed, List.length_cons] at le
    exact ⟨foot, by omega⟩

/-- What is left to read, and that there is a tower of so many nodes below `i`, without errors. -/
structure Climbed (kinds : List TokenKind) (height i : Nat) (s : ParserState) : Prop where
  kinds : s.kindsAhead = kinds
  errors : s.errors = []
  inside : i < s.nodes.size
  tall : Tall s.nodes height i

theorem Climbed.push {kinds : List TokenKind} {height i : Nat} {s : ParserState} {ids : List Nat}
    (climbed : Climbed kinds height i s) (child : i ∈ ids) (kind : NodeKind) (span : Span) :
    Climbed kinds (height + 1) s.nodes.size { s with nodes := adopt s.nodes kind span ids } where
  kinds := climbed.kinds
  errors := climbed.errors
  inside := by rw [size_adopt]; omega
  tall := .above adopt_new child (climbed.tall.develops adopt_develops)

theorem Climbed.advance {kind : TokenKind} {kinds : List TokenKind} {height i : Nat}
    {s : ParserState} (climbed : Climbed (kind :: kinds) height i s) (more : kind ≠ .eof) :
    Climbed kinds height i s.advance where
  kinds := kinds_ahead_advance climbed.kinds more
  errors := by rw [errors_advance, climbed.errors]
  inside := by rw [nodes_advance]; exact climbed.inside
  tall := by rw [nodes_advance]; exact climbed.tall

theorem Climbed.leave {kinds : List TokenKind} {height i : Nat} {s : ParserState}
    (climbed : Climbed kinds height i s) (depth : Nat) :
    Climbed kinds height i { s with depth } :=
  ⟨climbed.kinds, climbed.errors, climbed.inside, climbed.tall⟩

section Chain

variable {g : Nested} {s : ParserState} {height base : Nat} {rest : List TokenKind}

theorem array_index_yields
    (climbed : Climbed (.leftBracket :: .rightBracket :: rest) height base s) :
    Yields (Parser.arrayIndex g base) s (Climbed rest (height + 1)) := by
  have behind := climbed.advance (by decide)
  have closes := kind_of_ahead behind.kinds
  refine .skip <| .check ?_
  refine .bind (R := fun index s' => index = [] ∧ s' = s.advance) ?_ ?_
  · rw [closes]
    exact .pure ⟨rfl, rfl⟩
  rintro _ _ ⟨rfl, rfl⟩
  have beyond := behind.advance (by decide)
  refine .expect closes <| .wrap ?_ fun span => beyond.push List.mem_cons_self _ span
  simpa using beyond.inside

/-- Each pair of brackets puts one more node on the tower, whatever has been read before. -/
theorem chain_yields (n fuel : Nat) (enough : n < fuel)
    (climbed : Climbed (bracketKinds n ++ .semicolon :: rest) height base s) :
    Yields (Parser.iterate (Parser.chainLink g) fuel base) s
      (Climbed (.semicolon :: rest) (height + n)) := by
  induction n generalizing fuel height base s with
  | zero =>
    obtain ⟨fuel, rfl⟩ : ∃ k, fuel = k + 1 := ⟨fuel - 1, by omega⟩
    have ends : s.token.kind = .semicolon := kind_of_ahead climbed.kinds
    refine .bind (R := fun r s' => r = .done base ∧ s' = s) ?_ ?_
    · refine .current ?_
      rw [ends]
      exact .pure ⟨rfl, rfl⟩
    · rintro _ _ ⟨rfl, rfl⟩
      exact .pure climbed
  | succ n ih =>
    obtain ⟨fuel, rfl⟩ : ∃ k, fuel = k + 1 := ⟨fuel - 1, by omega⟩
    have opens : s.token.kind = .leftBracket := kind_of_ahead climbed.kinds
    refine .bind (R := fun r s' => ∃ i, r = .yield i ∧
      Climbed (bracketKinds n ++ .semicolon :: rest) (height + 1) i s') ?_ ?_
    · refine .current ?_
      rw [opens]
      exact .bind (array_index_yields climbed) fun i s' climbed => .pure ⟨i, rfl, climbed⟩
    · rintro _ s' ⟨i, rfl, climbed⟩
      rw [show height + (n + 1) = height + 1 + n by omega]
      exact ih fuel (by omega) climbed

end Chain

section Text

variable {g : Nested} {s : ParserState} {height i n : Nat} {rest : List TokenKind}

theorem primary_yields (kinds : s.kindsAhead = .variable :: rest) (errors : s.errors = []) :
    Yields (Parser.primary g) s (Climbed rest 0) := by
  have starts := kind_of_ahead kinds
  refine .current ?_
  rw [starts]
  refine .remaining ?_
  rw [kinds]
  refine .current <| .ite_pos starts <| .skip <| .push (by simp) ?_
  constructor
  case kinds => exact kinds_ahead_advance kinds (by decide)
  case errors => exact errors_advance.trans errors
  case inside => rw [size_adopt]; omega
  case tall => exact .here _

theorem unary_yields (kinds : s.kindsAhead = .variable :: (bracketKinds n ++ .semicolon :: rest))
    (errors : s.errors = []) :
    Yields (Parser.unary g) s (Climbed (.semicolon :: rest) n) := by
  have starts := kind_of_ahead kinds
  refine .current ?_
  rw [starts]
  refine .bind (primary_yields kinds errors) fun base s₁ first => ?_
  refine .bind (R := Climbed (.semicolon :: rest) n) (.remaining ?_) fun target s₂ climbed => ?_
  · rw [← Nat.zero_add n]
    refine chain_yields n _ ?_ (by simpa using first)
    rw [first.kinds]
    simp [bracketKinds]
    omega
  · have ends := kind_of_ahead climbed.kinds
    refine .current <| .bind (R := fun _ s' => s' = s₂) ?_ ?_
    · exact .nodeAt climbed.inside ⟨_, _, rfl, rfl⟩
    · rintro kind _ rfl
      refine .ite_neg ?_ (.pure climbed)
      rw [ends]
      simp

theorem binary_yields (kinds : s.kindsAhead = .variable :: (bracketKinds n ++ .semicolon :: rest))
    (errors : s.errors = []) :
    Yields (Parser.binary g 0) s (Climbed (.semicolon :: rest) n) := by
  refine .bind (unary_yields kinds errors) fun left s₁ climbed => .remaining ?_
  have ends := kind_of_ahead climbed.kinds
  have none : s₁.token.operator? = none := by rw [Token.operator?, ends]
  refine .bind (R := fun r s' => r = .done left ∧ s' = s₁) ?_ ?_
  · refine .current <| .ite_neg (by rw [ends]; decide) ?_
    rw [none]
    exact .pure ⟨rfl, rfl⟩
  · rintro _ _ ⟨rfl, rfl⟩
    exact .pure climbed

theorem statement_yields
    (kinds : s.kindsAhead = .variable :: (bracketKinds n ++ [.semicolon, .eof]))
    (errors : s.errors = []) (low : s.depth = 0) :
    Yields Parser.outermost.statement s fun id s' =>
      ∃ i, id = some i ∧ Climbed [.eof] (n + 1) i s' := by
  refine .nested (by rw [low]; decide) (R := fun id s' =>
    ∃ i, id = some i ∧ Climbed [.eof] (n + 1) i s') (fun s₁ kinds' errors' depth' => ?_) ?_
  · rw [kinds] at kinds'
    refine .current ?_
    rw [kind_of_ahead kinds']
    refine .map <| .current <| .bind (R := Climbed [.semicolon, .eof] n) ?_ fun value s₂ climbed => ?_
    · refine .nested (by rw [depth', low]; decide) (R := Climbed [.semicolon, .eof] n)
        (fun s₂ kinds₂ errors₂ _ => ?_) fun i s' depth climbed => climbed.leave depth
      exact binary_yields (kinds₂.trans kinds') ((errors₂.trans errors').trans errors)
    · have ends := kind_of_ahead climbed.kinds
      have behind := climbed.advance (by decide)
      refine .bind (R := fun _ s' => s' = s₂.advance) ?_ ?_
      · exact .current <| .ite_pos ends <| .skip ⟨_, _, rfl, rfl⟩
      · rintro span _ rfl
        refine .push (by simpa using behind.inside) ⟨_, rfl, ?_⟩
        exact behind.push (List.mem_singleton_self value) .expressionStatement span
  · rintro id s' depth ⟨i, same, climbed⟩
    exact ⟨i, same, climbed.leave depth⟩

theorem top_statement_yields (fuel : Nat)
    (kinds : s.kindsAhead = .variable :: (bracketKinds n ++ [.semicolon, .eof]))
    (errors : s.errors = []) (low : s.depth = 0) :
    Yields (Parser.topStatement (fuel + 1)) s fun ids s' =>
      ∃ i, ids = [i] ∧ Climbed [.eof] (n + 1) i s' := by
  have starts := kind_of_ahead kinds
  refine .current <| .ahead <| .ite_neg (by rw [starts]; simp) <| .ite_neg (by rw [starts]; decide) ?_
  refine .bind (statement_yields kinds errors low) ?_
  rintro _ s' ⟨i, rfl, climbed⟩
  exact .pure ⟨i, rfl, climbed⟩

theorem unit_yields (kinds : s.kindsAhead = .variable :: (bracketKinds n ++ [.semicolon, .eof]))
    (errors : s.errors = []) (low : s.depth = 0) :
    Yields Parser.compilationUnit s (Climbed [.eof] (n + 2)) := by
  refine .bind (R := fun ids s' => ∃ i, ids = [i] ∧ Climbed [.eof] (n + 1) i s') ?_ ?_
  · refine .recovering (by rw [kind_of_ahead kinds]; decide) rfl <| .remaining ?_
    rw [kinds]
    obtain ⟨ids, s', run, i, rfl, climbed⟩ := top_statement_yields _ kinds errors low
    exact ⟨[i], s', run, ⟨i, rfl, climbed⟩, .inl (kind_of_ahead climbed.kinds)⟩
  · rintro _ s₁ ⟨i, rfl, climbed⟩
    refine .bind (R := fun _ s' => s' = s₁) ?_ ?_
    · exact .nodeAt climbed.inside <| .nodeAt climbed.inside ⟨_, _, rfl, rfl⟩
    · rintro span _ rfl
      refine .push (by simpa using climbed.inside) ?_
      exact climbed.push (List.mem_singleton_self i) .compilationUnit span

end Text

/-- The text has a tree with a node below so many others. -/
theorem parse_indexed (n file : Nat) :
    ∃ t, parse (indexed n) file = .ok t ∧ ∃ i, n ≤ (t.ancestors i).length := by
  have kinds : (ParserState.initial (.ofSource (indexed n))).kindsAhead =
      .variable :: (bracketKinds n ++ [.semicolon, .eof]) := by
    rw [ParserState.kindsAhead, tokens_initial, ← kinds_indexed]
    rfl
  obtain ⟨root, s, run, climbed⟩ := unit_yields kinds rfl rfl
  have accepted : parse (indexed n) file = .ok ⟨file, s.nodes, root⟩ := by
    rw [parse, parseTokens, parseTokens?, run]
    dsimp only
    rw [climbed.errors]
    rfl
  refine ⟨_, accepted, ?_⟩
  obtain ⟨s', nodes, complete, -⟩ := complete_of_accepted accepted
  have shaped := complete.shaped
  rw [← nodes] at shaped
  obtain ⟨foot, deep⟩ := (SyntaxTree.rooted_of_shaped shaped).depth_of_tall climbed.tall
  exact ⟨foot, by omega⟩

/-- No number bounds the ancestors of a node, whatever the text. -/
theorem depth_unbounded : ¬∃ bound, ∀ (source : String) (file : Nat) (t : SyntaxTree),
    parse source file = .ok t → ∀ i, (t.ancestors i).length ≤ bound := by
  rintro ⟨bound, holds⟩
  obtain ⟨t, accepted, i, deep⟩ := parse_indexed (bound + 1) 0
  have shallow := holds _ _ t accepted i
  omega

end PhpAnalyser
