import PhpAnalyser.Proofs.Replay.Unit
/-!
Two texts one behind the other are read as the statements of the first and then those of the second.
-/
namespace PhpAnalyser

variable {s s' : ParserState} {ids : List Nat}

def NodeKind.setsNames : NodeKind → Bool
  | namespace_ _ | useImport .. => true
  | _ => false

def Plain (nodes : Array Node) (ids : List Nat) : Prop :=
  ∀ i ∈ ids, ∀ n, nodes[i]? = some n → n.kind.setsNames = false

theorem Plain.of_develops {nodes nodes' : Array Node} (plain : Plain nodes' ids)
    (develops : Develops nodes nodes') : Plain nodes ids := by
  intro i inside n found
  obtain ⟨n', found', kind, -⟩ := develops i n found
  exact kind ▸ plain i inside n' found'

def Imports (ids : List Nat) (s : ParserState) : Prop :=
  ∃ i ∈ ids, ∃ name short, s.Has i (.useImport name short) []

theorem Imports.not_plain (imports : Imports ids s) : ¬Plain s.nodes ids := by
  obtain ⟨i, inside, name, short, n, found, kind, -⟩ := imports
  intro plain
  have other := plain i inside n found
  rw [kind] at other
  cases other

theorem Imports.advance (imports : Imports ids s) : Imports ids s.advance := by
  obtain ⟨i, inside, name, short, n, found, rest⟩ := imports
  exact ⟨i, inside, name, short, n, by rwa [nodes_advance], rest⟩

namespace Succeeds

theorem import_clause_leaves {start : Span} {name : String} :
    Succeeds (Parser.importClause start name true) s Imports := by
  refine .then_ fun shortName _ => .modify <| finished.bind fun i s' made => .pure ?_
  exact ⟨i, List.mem_singleton_self i, _, _, made.1⟩

theorem import_group_leaves {start : Span} {group : String} :
    Succeeds (Parser.importGroup start group true) s Imports := by
  refine repeatFrom (I := fun _ _ => True) trivial fun ids s _ => .then_ ?_
  rintro ⟨written, _⟩ s
  refine import_clause_leaves.bind fun more s imports => ?_
  have all : Imports (ids ++ more) s := by
    obtain ⟨i, inside, rest⟩ := imports
    exact ⟨i, List.mem_append_right _ inside, rest⟩
  refine .eat (fun _ => ?_) fun _ => ?_
  · exact .check <| .ite (fun _ => .pure all.advance) fun _ => .pure trivial
  · exact .pure all

theorem import_item_leaves : Succeeds (Parser.importItem true) s Imports := by
  refine .current <| .then_ ?_
  rintro ⟨written, _⟩ s
  refine .check <| .ahead <| .ite (fun _ => ?_) fun _ => import_clause_leaves
  refine .skip <| .skip <| import_group_leaves.bind fun ids s imports => ?_
  refine .bind (R := fun _ s' => s' = s.advance) (.discard <| expect.mono fun _ _ is => is.2.2) ?_
  rintro _ _ rfl
  exact .pure imports.advance

end Succeeds

theorem import_clauses_leave {start : Span} : Succeeds (do
    let ids ← Parser.commaSeparated (Parser.importItem true)
    discard <| Parser.finishStatement start
    return ids.flatten) s Imports := by
  refine .bind (R := fun ids s => Imports ids.flatten s) ?_ fun ids s imports => ?_
  · refine .repeatFrom (I := fun _ _ => True) trivial fun items s _ =>
      Succeeds.import_item_leaves.bind fun ids s imports => ?_
    have all : Imports (items ++ [ids]).flatten s := by
      obtain ⟨i, inside, rest⟩ := imports
      exact ⟨i, by simp [inside], rest⟩
    exact .eat (fun _ => .pure trivial) fun _ => .pure all
  · refine .bind (R := fun _ s' => s' = s.advance)
      (.discard (Succeeds.finish_statement.mono fun _ _ ends => ends.2.1)) ?_
    rintro _ _ rfl
    exact .pure imports.advance

/-- Imports that leave no node leave the names as they were. -/
theorem imports_names : Succeeds Parser.imports s fun ids s' =>
    s'.errors = [] → Plain s'.nodes ids → s'.names = s.names := by
  refine .advance <| .bind (R := fun _ s₁ => s₁.errors = [] → s₁.names = s.names) ?_
    fun recorded s₁ names ids s' run clean plain => ?_
  · intro recorded s₁ run clean
    have passage := (Replays.importsTypes (W := .blank true)).passage recorded s₁ run clean
    exact (passage.names rfl).trans names_advance
  cases recorded with
  | true => exact absurd plain (import_clauses_leave ids s' run).not_plain
  | false =>
    have passage := (Replays.importClauses (W := .blank true) (fun is => by cases is) _).passage ids s' run clean
    exact (passage.names rfl).trans (names passage.clean)

/-- A statement of a file that leaves no namespace and no import leaves the names as they were. -/
theorem file_item_plain : Succeeds fileItem s fun ids s' => s'.errors = [] → Plain s'.nodes ids →
    s'.names = s.names ∧
      (s.token.kind = .keyword .namespace_ → (s.stream.peek 1).kind = .backslash) := by
  change Succeeds (Parser.topStatement s.stream.remaining) s _
  cases s.stream.remaining with
  | zero => exact fun _ _ => nofun
  | succ fuel =>
    refine .current <| .ahead <| .ite (fun _ => ?_) fun other => ?_
    · refine .bind (R := fun i s' => ∃ package ids, s'.Has i (.namespace_ package) ids) ?_ ?_
      · exact .advance <| .then_ fun _ _ => .modify <| .then_ fun _ _ =>
          Succeeds.finished.mono fun _ _ made => ⟨_, _, made.1⟩
      · rintro i s' ⟨package, ids, n, found, kind, -⟩
        refine .pure fun _ plain => ?_
        have other := plain i (List.mem_singleton_self i) n found
        rw [kind] at other
        cases other
    · have named (kind : s.token.kind = .keyword .namespace_) :
          (s.stream.peek 1).kind = .backslash := by
        simpa [kind] using other
      refine .ite (fun _ => ?_) fun _ => ?_
      · exact imports_names.mono fun _ _ names clean plain => ⟨names clean plain, named⟩
      · refine .bind (R := fun _ s' => s'.errors = [] → s'.names = s.names) ?_
          fun _ _ names => .pure fun clean _ => ⟨names clean, named⟩
        exact ((tracks_outermost (W := .blank true)).statement true s).passage.mono
          fun _ _ passage clean => (passage clean).names rfl

/-- A statement of a file that does not set names. -/
structure Common (s : ParserState) (ids : List Nat) (s' : ParserState) : Prop
    extends Item (fun _ => false) fileItem s ids s' where
  names : s'.names = s.names
  named : s.token.kind = .keyword .namespace_ → (s.stream.peek 1).kind = .backslash

/-- Statements that leave no namespace and no import do not set names. -/
theorem FileRow.common (row : FileRow s ids s') (plain : Plain s'.nodes ids) : Row Common s ids s' := by
  induction row with
  | nil s => exact .nil s
  | @cons s s₁ s' ids more first rest ih =>
    have develops := (FileRow.passage rest first.clean).nodes
    have later : Plain s'.nodes ids := fun i inside => plain i (List.mem_append_left _ inside)
    have own : Plain s₁.nodes ids := later.of_develops develops
    obtain ⟨names, named⟩ := file_item_plain ids s₁ first.run first.clean own
    exact .cons ⟨first, names, named⟩ (ih fun i inside => plain i (List.mem_append_right _ inside))

namespace Row

theorem common_names (row : Row Common s ids s') : s'.names = s.names := by
  induction row with
  | nil => rfl
  | cons first _ ih => exact ih.trans first.names

/-- Such statements end with a seal. -/
theorem common_sealed (row : Row Common s ids s') : s'.place = s.place ∨ Sealed s s' := by
  induction row with
  | nil => exact .inl rfl
  | cons first rest ih =>
    have closing := fileItem_closing (W := .blank false) (k := true) rfl first.named
    obtain ⟨-, closes, -⟩ := closing _ _ first.run first.clean
    rcases ih with same | later
    · exact .inr ⟨same ▸ closes.place_lt, by rw [same, (rest.imp fun _ _ _ c => c.toItem).tokens]; exact closes.ends⟩
    · exact .inr (later.after (Nat.le_of_lt first.moves))

end Row

section Texts

variable {xs ys : List Token} {file : Nat}

theorem closing_append (some : ys ≠ []) : TokenStream.closing (xs ++ ys) = TokenStream.closing ys := by
  obtain ⟨t, last⟩ := Option.ne_none_iff_exists'.mp (mt List.getLast?_eq_none_iff.mp some)
  rw [TokenStream.closing, TokenStream.closing, List.getLast?_append, last, Option.some_or]

/-- A text that is accepted does not start with a word that goes on with a statement. -/
theorem bare_start (row : FileRow (.initial (.ofTokens ys)) ids s) (ends : s.token.kind = .eof)
    (unmarked : Unmarked ys) {t : Token} (found : ys[0]? = some t) : t.kind.resumes = false := by
  have here (s₀ : ParserState) (start : s₀ = .initial (.ofTokens ys)) : s₀.token = t := by
    have at_ := s₀.token_at
    have low := (List.getElem?_eq_some_iff.mp found).1
    have tokens : s₀.tokens = (TokenStream.close ys).toArray := by rw [start]; rfl
    have place : s₀.place = 0 := by rw [start]; rfl
    rw [tokens, place, unmarked.close, List.getElem?_toArray, List.getElem?_append_left low, found] at at_
    exact (Option.some.inj at_).symm
  cases row with
  | nil =>
    have mem := List.mem_of_getElem? found
    exact absurd ((here _ rfl) ▸ ends) (unmarked t mem)
  | cons first rest =>
    by_contra resumes
    obtain ⟨word, is, continues⟩ := TokenKind.continues_of_resumes (by simpa using resumes)
    exact Refuses.fileItem continues _ (by rw [here _ rfl, is]) _ _ first.run

section Overlaps

variable (first : Unmarked xs) (second : Unmarked ys)

def Overlap.latter (some : ys ≠ []) (front : Array Node) : Overlap where
  own := (TokenStream.close ys).toArray
  whole := (TokenStream.close (xs ++ ys)).toArray
  start := 0
  stop := ys.length + 1
  gap := xs.length
  front := front
  steady := false
  shared k _ high := by
    rw [second.close, (first.append second).close, List.getElem?_toArray, List.getElem?_toArray,
      List.append_assoc, closing_append some, List.getElem?_append_right (Nat.le_add_left _ _),
      Nat.add_sub_cancel]
  closed t high found := by
    rw [second.close, List.getElem?_toArray, Nat.add_sub_cancel, List.getElem?_concat_length] at found
    cases found
    rfl
  bare t found := by
    rcases found with own | whole
    · rw [second.close, List.getElem?_toArray, List.getElem?_eq_none (by simp)] at own
      cases own
    · rw [(first.append second).close, List.getElem?_toArray, List.getElem?_eq_none (by simp; omega)] at whole
      cases whole

end Overlaps

variable (first : Unmarked xs) (second : Unmarked ys)
include first second

/-- The statements of the first text are read in front of the second one. -/
theorem former_row (row : Row Common (.initial (.ofTokens xs)) ids s) (ends : s.token.kind = .eof)
    (bare : ∀ t, ys[0]? = some t → t.kind.resumes = false) (some : ys ≠ []) :
    ∃ t, FileRow (.initial (.ofTokens (xs ++ ys))) ids t ∧
      Beside (.latter first second some s.nodes) false (.initial (.ofTokens ys)) t := by
  have read : FileRow (.initial (.ofTokens xs)) ids s := row.imp fun _ _ _ common => common.toItem
  have place := first.place read.tokens ends
  have split : xs = [] ++ (xs ++ []) := (List.append_nil xs).symm
  have split' : xs ++ ys = [] ++ (xs ++ ys) := rfl
  let W : Overlap := .amid false first (first.append second) split split' rfl
    (fun _ => first.seals split row.common_sealed read.tokens rfl (place.trans (Nat.zero_add _).symm))
    fun t next => bare t (List.head?_eq_getElem?.symm.trans (next.resolve_left nofun))
  have beside : Beside W true (.initial (.ofTokens xs)) (.initial (.ofTokens (xs ++ ys))) :=
    ⟨rfl, rfl, Nat.le_refl _, rfl, (nil_behind _).symm, rfl, rfl, fun _ => rfl, Nat.le_refl _, rfl⟩
  have roomy : W.Roomy := by
    change (TokenStream.close xs).toArray.size + 0 ≤ (TokenStream.close (xs ++ ys)).toArray.size
    rw [first.close, (first.append second).close]
    simp
  obtain ⟨t, former, beside⟩ := row.replay (m := .closing) (fun _ => false) roomy
    (fun _ _ _ common => common.toItem) (fun _ _ _ common => fileItem_closing rfl common.named)
    (fun _ _ _ _ => rfl) (Nat.le_of_eq (place.trans (Nat.zero_add _).symm)) beside
  have passage := read.passage rfl
  have same : W.shift ids = ids := List.map_id'' (fun _ => rfl) ids
  refine ⟨t, same ▸ former, {
    own := rfl
    whole := beside.whole
    start_le := Nat.le_refl _
    place := beside.place.trans (by rw [place]; exact (Nat.zero_add _).symm)
    nodes := (beside.nodes.trans (nil_behind _)).trans (behind_nil _).symm
    names := beside.names.trans row.common_names
    scope := beside.scope.trans passage.scope
    last := nofun
    depth_le := Nat.le_trans beside.depth_le (Nat.le_of_eq passage.depth)
    clean := beside.clean }⟩

/-- The statements of the second text are read behind the first one. -/
theorem latter_row {more : List Nat} {front : Array Node} {t : ParserState}
    (row : FileRow (.initial (.ofTokens ys)) more s) (ends : s.token.kind = .eof) (some : ys ≠ [])
    (beside : Beside (.latter first second some front) false (.initial (.ofTokens ys)) t) :
    ∃ t', FileRow t (more.map (· + front.size)) t' ∧ t'.token.kind = .eof ∧
      t'.nodes = behind front s.nodes := by
  have inside : s.place < ys.length + 1 := Nat.lt_succ_of_le (Nat.le_of_eq (second.place row.tokens ends))
  have roomy : (Overlap.latter first second some front).Roomy := by
    change (TokenStream.close ys).toArray.size + xs.length ≤ (TokenStream.close (xs ++ ys)).toArray.size
    rw [second.close, (first.append second).close]
    simp
    omega
  obtain ⟨t', latter, after⟩ := row.replay (m := .inner) (fun _ => false) roomy
    (fun _ _ _ item => item) (fun _ _ _ _ => fileItem_inner rfl) (fun _ _ _ _ => rfl) inside beside
  exact ⟨t', latter, by rw [after.token inside, ends], after.nodes⟩

/-- The statements of both texts are those of the first and then those of the second. -/
theorem joined_row {more : List Nat} (row : Row Common (.initial (.ofTokens xs)) ids s)
    (ends : s.token.kind = .eof) (row' : FileRow (.initial (.ofTokens ys)) more s')
    (ends' : s'.token.kind = .eof) :
    ∃ t, FileRow (.initial (.ofTokens (xs ++ ys))) (ids ++ more.map (· + s.nodes.size)) t ∧
      t.token.kind = .eof ∧ t.nodes = behind s.nodes s'.nodes := by
  by_cases none : ys = []
  · subst none
    have read : FileRow (.initial (.ofTokens xs)) ids s := row.imp fun _ _ _ common => common.toItem
    cases row' with
    | nil => exact ⟨s, by simpa using read, ends, (behind_nil _).symm⟩
    | cons one rest =>
      have low := Nat.lt_of_lt_of_le one.moves rest.place_le
      rw [second.place (rest.tokens.trans one.tokens) ends'] at low
      exact absurd low (Nat.not_lt_zero _)
  · have bare (t : Token) (found : ys[0]? = some t) := bare_start row' ends' second found
    obtain ⟨t, former, beside⟩ := former_row first second row ends bare none
    obtain ⟨t', latter, rest⟩ := latter_row first second row' ends' none beside
    exact ⟨t', former.append latter, rest⟩

end Texts

/-- The tree `c` has the statements of `a` and then those of `b`, whose nodes stand behind those of
`a`. -/
structure Concatenates (a b c : SyntaxTree) : Prop where
  root : c.root = a.root + b.root
  children : c.children c.root = a.children a.root ++ (b.children b.root).map (· + a.root)
  former : ∀ i < a.root, c.node? i = (a.node? i).map fun n =>
    if i ∈ a.children a.root then { n with parent := some c.root } else n
  latter : ∀ i < b.root, c.node? (i + a.root) = (b.node? i).map (Node.shift a.root)

variable {file : Nat} {nodes nodes' : Array Node} {span span₁ span₂ : Span} {more : List Nat}

theorem concatenates_behind (made : ∀ i ∈ ids, i < nodes.size) :
    Concatenates (unit file nodes span ids) (unit file nodes' span₁ more)
      (unit file (behind nodes nodes') span₂ (ids ++ more.map (· + nodes.size))) where
  root := size_behind.trans (Nat.add_comm _ _)
  children := by
    rw [unit_children, unit_children, unit_children]
  former i low := by
    have low : i < nodes.size := low
    have inside : i < (behind nodes nodes').size := size_behind ▸ Nat.lt_add_left _ low
    rw [unit_children]
    simp only [SyntaxTree.node?, adopt_old low, adopt_old inside, behind_front low, Option.map_map]
    refine Option.map_congr fun n _ => ?_
    have other : i ∉ more.map (· + nodes.size) := by
      intro member
      obtain ⟨k, -, same⟩ := List.mem_map.mp member
      omega
    by_cases inside : i ∈ ids <;> simp [inside, other]
  latter i low := by
    have low : i < nodes'.size := low
    have inside : i + nodes.size < (behind nodes nodes').size := size_behind ▸ Nat.add_lt_add_right low _
    simp only [SyntaxTree.node?, adopt_old low, adopt_old inside, behind_found, Option.map_map]
    refine Option.map_congr fun n _ => ?_
    have other : i + nodes.size ∉ ids := fun member => by
      have := made _ member
      omega
    have same : i + nodes.size ∈ more.map (· + nodes.size) ↔ i ∈ more := by simp
    by_cases inside : i ∈ more <;> simp [inside, other, same, Node.shift, size_behind]

/-- Two texts one behind the other are accepted if each of them is and the first has no namespace
and no import at its top. The whole has the statements of the first and then those of the second. -/
theorem parse_append {xs ys : List Token} (first : Unmarked xs) (second : Unmarked ys)
    {a b : SyntaxTree} (accepted : parseTokens (.ofTokens xs) file = .ok a)
    (accepted' : parseTokens (.ofTokens ys) file = .ok b)
    (plain : ∀ i ∈ a.children a.root, (a.kind i).setsNames = false) :
    ∃ c, parseTokens (.ofTokens (xs ++ ys)) file = .ok c ∧ Concatenates a b c := by
  obtain ⟨ids, s, span, row, ends, made, rfl⟩ := row_of_accepted accepted
  obtain ⟨more, s', span', row', ends', made', rfl⟩ := row_of_accepted accepted'
  rw [unit_children] at plain
  have grown : Develops s.nodes (adopt s.nodes .compilationUnit span ids) := adopt_develops
  have common := row.common fun i inside n found => by
    obtain ⟨n', found', kind, -⟩ := grown i n found
    have other := plain i inside
    rw [SyntaxTree.kind, SyntaxTree.node?, found', Option.elim, kind] at other
    exact other
  obtain ⟨t, whole, closes, nodes⟩ := joined_row first second common ends row' ends'
  have all : ∀ i ∈ ids ++ more.map (· + s.nodes.size), i < t.nodes.size := by
    intro i member
    rw [nodes, size_behind]
    rcases List.mem_append.mp member with left | right
    · exact Nat.lt_add_left _ (made i left)
    · obtain ⟨k, inside, rfl⟩ := List.mem_map.mp right
      exact Nat.add_lt_add_right (made' k inside) _
  obtain ⟨span₂, joined⟩ := accepted_of_row whole closes all
  rw [nodes] at joined
  exact ⟨_, joined, concatenates_behind made⟩

def formerText : String := "<?php if ($a) f(); "

def latterText : String := "<?php while ($b) { g(); }"

theorem parse_append_control : ∃ a b, parseTokens (.ofTokens (scanOpen formerText)) 0 = .ok a ∧
    parseTokens (.ofTokens (scanOpen latterText)) 0 = .ok b ∧
    (∀ i ∈ a.children a.root, (a.kind i).setsNames = false) ∧
    ∃ c, parseTokens (.ofTokens (scanOpen formerText ++ scanOpen latterText)) 0 = .ok c ∧ Concatenates a b c := by
  have first : Unmarked (scanOpen formerText) := by unfold Unmarked; decide +kernel
  have second : Unmarked (scanOpen latterText) := by unfold Unmarked; decide +kernel
  have shows : (parseTokens (.ofTokens (scanOpen formerText)) 0).toOption.any (fun a =>
      (a.children a.root).all fun i => !(a.kind i).setsNames) = true := by decide +kernel
  have shows' : (parseTokens (.ofTokens (scanOpen latterText)) 0).toOption.any (fun _ => true) = true := by
    decide +kernel
  obtain ⟨a, accepted, plain⟩ := ok_of_any shows
  obtain ⟨b, accepted', -⟩ := ok_of_any shows'
  have plain : ∀ i ∈ a.children a.root, (a.kind i).setsNames = false := by simpa using plain
  exact ⟨a, b, accepted, accepted', plain, parse_append first second accepted accepted' plain⟩

end PhpAnalyser
