import PhpAnalyser.Grammar.Unit
import PhpAnalyser.Proofs.Grammar.Parts
import PhpAnalyser.Proofs.Grammar.Statement
import PhpAnalyser.Proofs.Syntax.Shape
/-!
What the productions of files make, from nested statements to the tree of a text.
-/
namespace PhpAnalyser

variable {c : Setting} {origin s s' : ParserState} {ids : List Nat}

def ParserState.deeper (s : ParserState) : ParserState := { s with depth := s.depth + 1 }

def ParserState.shallower (s : ParserState) : ParserState := { s with depth := s.depth - 1 }

def Setting.deeper (c : Setting) : Setting := { c with depth := c.depth + 1 }

theorem Sound.deeper (sound : Sound c s) : Sound c.deeper s.deeper :=
  { sound with depth := congrArg (· + 1) sound.depth }

theorem Sound.shallower (sound : Sound c.deeper s) : Sound c s.shallower :=
  { sound with depth := congrArg (· - 1) sound.depth }

theorem Gathered.shallower (gathered : Gathered c.deeper s.deeper s' ids) :
    Gathered c s s'.shallower ids where
  valid := { gathered.valid with }
  sound := gathered.sound.shallower
  onward := { gathered.onward with }
  pending := gathered.pending

theorem Made.shallower {i : Nat} (made : Made c.deeper s.deeper i s') :
    Made c s i s'.shallower where
  toGathered := made.toGathered.shallower
  begun lt := { made.begun lt with }
  place_lt := made.place_lt

theorem Operand.shallower {least i : Nat} (operand : Operand c.deeper least s.deeper i s') :
    Operand c least s i s'.shallower where
  toMade := operand.toMade.shallower
  power := operand.power
  stop := operand.stop
  spelled := operand.spelled

theorem Stated.shallower {r : Option Nat} (stated : Stated c.deeper s.deeper r s') :
    Stated c s r s'.shallower := by
  cases r with
  | none => exact ⟨stated.1.shallower, stated.2⟩
  | some i => exact Made.shallower stated

theorem enter_nesting_reads (sound : Sound c s) :
    Reads s Parser.enterNesting s fun _ s' => s' = s.deeper ∧ c.depth < Parser.maxNesting := by
  refine .bind (R := fun _ s' => s' = s.deeper) rfl ?_
  rintro - _ rfl
  refine .get <| .ite (fun _ => ?_) fun enough => ⟨rfl, ?_⟩
  · exact {
      valid := sound.deeper.toValid
      onward := { Onward.refl s with }
      located := ⟨s.token, s.token_mem, rfl⟩
      start_le := Nat.le_refl _
      noted_lt := fun f member => (sound.noted f member).2.2
      resumes := fun no => nomatch no }
  · have le : s.depth + 1 ≤ Parser.maxNesting := Nat.le_of_not_lt enough
    rw [sound.depth] at le
    exact le

theorem nested_reads {p : Parser α} {Q : α → ParserState → Prop} (sound : Sound c s)
    (reads : c.depth < Parser.maxNesting →
      Reads s.deeper p s.deeper fun a s' => Q a s'.shallower) :
    Reads s (Parser.nested p) s Q := by
  refine .bind (enter_nesting_reads sound) ?_
  rintro - _ ⟨rfl, lt⟩
  refine .restoring (reads lt) fun e s' fails => ?_
  exact { fails with valid := { fails.valid with }, onward := { fails.onward with } }

/-- The readers at each depth, down to the deepest one. -/
theorem readers_nested (levels depth : Nat) (enough : depth + levels = Parser.maxNesting) :
    Readers depth (Parser.nestedAt levels) := by
  induction levels generalizing depth with
  | zero =>
    constructor
    · intro c least s same sound
      exact nested_reads sound fun lt => absurd lt (by omega)
    · intro c s same sound
      exact nested_reads sound fun lt => absurd lt (by omega)
  | succ levels ih =>
    have inner := ih (depth + 1) (by omega)
    constructor
    · rintro c least s rfl sound
      exact nested_reads sound fun _ =>
        (binary_reads (c := c.deeper) inner least sound.deeper).mono fun _ _ => Operand.shallower
    · rintro c s rfl sound
      exact nested_reads sound fun _ =>
        (statement_reads (c := c.deeper) inner sound.deeper).mono fun _ _ => Stated.shallower

theorem readers_outermost : Readers 0 Parser.outermost :=
  readers_nested Parser.maxNesting 0 (Nat.zero_add _)

/-- The names in effect have no effect on the tokens and the nodes. A production that cannot leave
its namespace does not change it. -/
theorem Underway.renamed {names : NameContext} (underway : Underway c origin s ids)
    (stays : c.space = none ∨ names.package = s.names.package)
    (clean : s.errors = [] → Clean names.package) : Underway c origin { s with names } ids where
  valid := underway.valid
  sound := { underway.sound with
    housed := by
      intro none space floor inside
      obtain ⟨package, kinds⟩ := underway.sound.housed none space floor inside
      rcases stays with outside | same
      · rw [outside] at inside
        cases inside
      · exact ⟨same.trans package, kinds⟩
    worded := fun none => ⟨clean none, (underway.sound.worded none).kinds⟩ }
  onward := { underway.onward with }
  pending := underway.pending
  begun lt := { underway.begun lt with }

theorem import_alias_takes {name : String} : Takes 0 c (Parser.importAlias name) := by
  intro origin s ids underway
  refine .bind (eat_reads underway rfl) ?_
  rintro eaten s₁ ⟨underway, le, -⟩
  refine .ite (fun _ => ?_) fun _ => ⟨underway, le⟩
  refine .bind (expect_reads underway rfl) ?_
  rintro _ s₂ ⟨-, -, took⟩
  exact ⟨took.underway, Nat.le_trans le (Nat.le_of_lt took.place_lt)⟩

structure Importing (c : Setting) (origin s : ParserState) (ids : List Nat) : Prop extends
    Underway c origin s ids where
  place_lt : origin.place < s.place
  shared : ∀ i ∈ ids, (spanAt s.nodes i).start = origin.here

theorem Importing.then (importing : Importing c origin s ids) (later : Underway c s s' []) :
    Importing c origin s' ids where
  toUnderway := by simpa using importing.toUnderway.then later
  place_lt := Nat.lt_of_lt_of_le importing.place_lt later.onward.place_le
  shared i member := by
    rw [later.onward.grown.develops.span_at (importing.pending.lt_size member)]
    exact importing.shared i member

theorem Reads.importing {p : Parser α} {R : α → ParserState → Prop}
    (importing : Importing c origin s ids)
    (reads : Reads s p s fun a s' => Underway c s s' [] ∧ R a s') :
    Reads origin p s fun a s' => Importing c origin s' ids ∧ R a s' :=
  (reads.from_ importing.onward).mono fun _ _ holds => ⟨importing.then holds.1, holds.2⟩

theorem import_clause_reads {name : String} {recorded : Bool}
    (importing : Importing c origin s ids) :
    Reads origin (Parser.importClause origin.token.span name recorded) s fun more s' =>
      Importing c origin s' (ids ++ more) ∧ s.place ≤ s'.place := by
  refine .bind (.importing importing (import_alias_takes _ _ _ importing.sound.underway)) ?_
  rintro shortName s₁ ⟨importing, le⟩
  refine .ite (fun _ => ?_) fun _ => ?_
  · exact ⟨by rwa [List.append_nil], le⟩
  let renamed : ParserState := { s₁ with names := s₁.names.addImport shortName name }
  have underway : Underway c s₁ renamed [] :=
    importing.sound.underway.renamed (.inr rfl) fun none => (importing.sound.worded none).package
  refine .bind (.importing importing (R := fun _ s' => s'.place = s₁.place) ⟨underway, rfl⟩) ?_
  rintro - s₂ ⟨importing, place⟩
  have underway := importing.toUnderway
  have lt := importing.place_lt
  have valid := underway.sound.toValid
  have anchored := ((underway.begun lt).anchored_start underway.onward valid).merge
    ((underway.begun lt).anchored_last valid)
  have start := underway.start_eq lt
  have stop := underway.stop_eq lt
  have none_yet : Pending origin.nodes.size s₂.nodes origin.here s₂.last.stop [] := .nil
  refine .bind (R := fun i s' => Importing c origin s' (ids ++ [i]) ∧ s₂.place = s'.place) ?_
    fun i s₃ holds => ⟨holds.1, by omega⟩
  refine .get <| (push_places underway.sound underway.onward none_yet anchored (Nat.le_of_eq start)
    (Nat.le_of_eq stop.symm) (.of_plain rfl) (.of_plain rfl)).mono ?_
  rintro i _ ⟨sound, onward, -, rfl, rfl⟩
  have grown : Extends s₂.nodes (adopt s₂.nodes (.useImport name shortName)
      (origin.token.span.merge s₂.last) []) := extends_adopt (.refl _) (by simp)
  have pending := underway.pending
  rw [← stop] at pending
  have pending := pending.append_over grown adopt_new (Nat.le_refl _) underway.onward.grown.size_le
    rfl (Nat.le_of_eq start.symm) anchored.extent fun j member =>
      Nat.le_of_eq ((importing.shared j member).trans start.symm)
  rw [stop] at pending
  refine ⟨{
    valid := underway.valid
    sound := sound
    onward := onward
    pending := pending
    begun := fun _ => { underway.begun lt with }
    place_lt := lt
    shared := ?_ }, rfl⟩
  intro j member
  rcases List.mem_append.mp member with earlier | last
  · rw [grown.develops.span_at (underway.pending.lt_size earlier)]
    exact importing.shared j earlier
  · rw [List.mem_singleton.mp last, span_at_of_eq adopt_new]
    exact start

theorem import_group_reads {group : String} {recorded : Bool}
    (importing : Importing c origin s []) :
    Reads origin (Parser.importGroup origin.token.span group recorded) s fun ids s' =>
      Importing c origin s' ids := by
  refine .loop (I := fun ids s' => Importing c origin s' ids) (fun _ _ h => h.onward.tokens)
    importing fun ids s₁ importing => ?_
  refine .bind (.importing importing (name_takes _ _ _ importing.sound.underway)) ?_
  rintro ⟨written, span⟩ s₂ ⟨importing, lt₂⟩
  refine .bind (import_clause_reads importing) ?_
  rintro more s₃ ⟨importing, le₃⟩
  refine .bind (.importing importing (eat_reads importing.sound.underway rfl)) ?_
  rintro eaten s₄ ⟨importing, le₄, -⟩
  refine .ite (fun _ => importing) fun _ => .test <| .ite (fun _ => importing) fun _ => ?_
  exact ⟨importing, by omega⟩

theorem import_item_reads {recorded : Bool} (sound : Sound c s) :
    Reads s (Parser.importItem recorded) s fun ids s' =>
      Underway c s s' ids ∧ s.place < s'.place := by
  refine .current <| .bind (name_takes _ _ _ sound.underway) ?_
  rintro ⟨written, span⟩ s₁ ⟨underway, lt⟩
  have importing {s' : ParserState} (underway : Underway c s s' []) (lt : s.place < s'.place) :
      Importing c s s' [] :=
    ⟨underway, lt, by simp⟩
  refine .test <| .ahead <| .ite (fun isGroup => ?_) fun _ => ?_
  · rw [Bool.and_eq_true, decide_eq_true_eq, decide_eq_true_eq] at isGroup
    apply Reads.skip underway (by rw [isGroup.1]; rfl)
    intro s₂ took
    have lt₂ := took.place_lt
    apply Reads.skip took.underway (by rw [took.token_eq, isGroup.2]; rfl)
    intro s₃ took
    have lt₃ := took.place_lt
    refine .bind (import_group_reads (importing took.underway (by omega))) ?_
    rintro ids s₄ importing
    refine .mark importing.toUnderway rfl ?_
    intro s₅ took
    exact ⟨took.underway, Nat.lt_trans importing.place_lt took.place_lt⟩
  · refine (import_clause_reads (importing underway lt)).mono ?_
    rintro ids s₂ ⟨importing, -⟩
    exact ⟨importing.toUnderway, importing.place_lt⟩

theorem imports_types_takes : Takes 0 c Parser.importsTypes := by
  intro origin s ids underway
  refine .current <| .ite (fun isWord => ?_) fun _ => ⟨underway, Nat.le_refl _⟩
  have ordinary : s.token.kind.isOrdinary := by
    rw [Bool.or_eq_true, decide_eq_true_eq, decide_eq_true_eq] at isWord
    rcases isWord with kind | kind
    · rw [show s.token.kind = _ from kind]
      rfl
    · rw [show s.token.kind = _ from kind]
      rfl
  exact .bind (skip_reads underway ordinary) fun _ s' took =>
    ⟨took.underway, Nat.le_of_lt took.place_lt⟩

theorem imports_reads (sound : Sound c s) (word : s.token.kind = .keyword .use_) :
    Reads s Parser.imports s fun ids s' => Underway c s s' ids ∧ s.place < s'.place := by
  apply Reads.advance sound.underway (by rw [word]; rfl)
  intro s₁ took
  have lt := took.place_lt
  apply imports_types_takes.then took.underway
  intro recorded s₂ underway le₂
  refine .bind (.commaSeparated (c := fun _ => c) (f := List.flatten) underway ?_) ?_
  · intro items s₃ underway
    refine ((import_item_reads underway.sound).from_ underway.onward).mono ?_
    rintro ids s₄ ⟨more, lt₄⟩
    refine ⟨?_, lt₄⟩
    rw [List.flatten_concat]
    exact underway.then more
  rintro items s₃ ⟨underway, lt₃⟩
  refine .bind (R := fun _ s' => Underway c s s' items.flatten ∧ s.place < s'.place) (.discard ?_) ?_
  · refine (finish_statement_reads underway (by omega)).mono ?_
    rintro _ s₄ ⟨-, -, -, underway, lt₄⟩
    exact ⟨underway, by omega⟩
  · exact fun _ s₄ holds => holds

theorem package_name_reads (underway : Underway c origin s ids) :
    Reads origin Parser.packageName s fun package s' =>
      (Underway c origin s' ids ∧ s.place ≤ s'.place) ∧ Clean package := by
  refine .test <| .ite (fun word => ?_) fun _ => ⟨⟨underway, Nat.le_refl _⟩, .empty⟩
  refine .bind (name_reads underway) ?_
  rintro _ s₁ ⟨-, ⟨underway, lt⟩, solid, rootless⟩
  exact ⟨⟨underway, Nat.le_of_lt lt⟩, solid, rootless (of_decide_eq_true word)⟩

/-- The items of a file or of a namespace, in the namespace in effect in front of them. -/
theorem items_reads (stop : Token → Bool) (item : Parser (List Nat)) (sound : Sound c s)
    (each : ∀ s₁, Sound c s₁ → Onward s s₁ → Reads s₁ item s₁ fun ids s' =>
      (Gathered c s₁ s' ids ∧ s₁.place < s'.place) ∧ (s'.errors = [] → Parted s₁ s' ids)) :
    Reads s (Parser.recovering stop item) s fun ids s' =>
      (Gathered c s s' ids ∧ (s'.errors = [] → Parted s s' ids)) ∧
        (s'.token.kind = .eof ∨ stop s'.token) := by
  refine recovering_keeps stop item (R := fun ids s' => s'.errors = [] → Parted s s' ids) sound
    (fun _ => .nil) ?_ fun _ s₁ some none => absurd none some
  intro ids s₁ gathered parted _ _
  refine (each s₁ gathered.sound gathered.onward).mono ?_
  rintro more s₂ ⟨⟨gathered', lt⟩, parted'⟩
  refine ⟨⟨gathered', lt⟩, fun none => ?_⟩
  exact (parted (gathered'.onward.clean none)).append gathered (parted' none) gathered'.onward

theorem namespace_body_reads {item : Parser (List Nat)} {start : Span}
    (underway : Underway c origin s []) (lt : origin.place < s.place)
    (each : ∀ s₁, Sound c s₁ → Onward s s₁ → Reads s₁ item s₁ fun ids s' =>
      (Gathered c s₁ s' ids ∧ s₁.place < s'.place) ∧ (s'.errors = [] → Parted s₁ s' ids)) :
    Reads origin (Parser.namespaceBody item start) s fun ids s' =>
      (Underway c origin s' ids ∧ s.place ≤ s'.place) ∧ Onward s s' ∧
        (s'.errors = [] → Parted s s' ids) := by
  refine .bind (eat_cases underway rfl) ?_
  rintro _ s₁ (⟨rfl, -, took⟩ | ⟨rfl, -, rfl⟩)
  · have lt₁ := took.place_lt
    have items := items_reads (fun t => t.kind = .rightBrace) item took.underway.sound
      fun s₂ sound onward => each s₂ sound (took.onward.trans onward)
    refine .bind (items.from_ took.underway.onward) ?_
    rintro ids s₂ ⟨⟨gathered, parted⟩, -⟩
    have le₂ := gathered.onward.place_le
    refine .mark (took.underway.gather (by omega) gathered) rfl ?_
    intro s₃ took'
    have lt₃ := took'.place_lt
    have onward := took.onward.trans (gathered.onward.trans took'.onward)
    refine ⟨⟨took'.underway, by omega⟩, onward, fun none => ?_⟩
    rw [took'.errors] at none
    exact (parted none).congr took.nodes took.names took'.nodes took'.names
  · refine .bind (.discard (Q := fun _ s' => Underway c origin s' [] ∧ s' = s₁.advance) ?_) ?_
    · refine (finish_statement_reads underway lt).mono ?_
      rintro _ s₂ ⟨-, rfl, -, closed, -⟩
      exact ⟨closed, rfl⟩
    rintro - _ ⟨closed, rfl⟩
    have onward := underway.sound.onward_advance
    have le₂ := onward.place_le
    have items := items_reads (fun t => t.kind = .keyword .namespace_) item closed.sound
      fun s₃ sound later => each s₃ sound (onward.trans later)
    refine (items.from_ closed.onward).mono ?_
    rintro ids s₃ ⟨⟨gathered, parted⟩, -⟩
    have le₃ := gathered.onward.place_le
    refine ⟨⟨closed.gather (by omega) gathered, by omega⟩, onward.trans gathered.onward, ?_⟩
    exact fun none => (parted none).congr nodes_advance names_advance rfl rfl

theorem namespace_declaration_reads {item : Parser (List Nat)} (sound : Sound c s)
    (outside : c.space = none) (word : s.token.kind = .keyword .namespace_)
    (each : ∀ s₁, Sound c s₁ → s₁.tokens = s.tokens → s.place < s₁.place →
      Reads s₁ item s₁ fun ids s' =>
        (Gathered c s₁ s' ids ∧ s₁.place < s'.place) ∧ (s'.errors = [] → Parted s₁ s' ids)) :
    Reads s (Parser.namespaceDeclaration item) s fun i s' =>
      Atom c s i s' ∧ (s'.errors = [] → Parted s s' [i]) := by
  apply Reads.advance sound.underway (by rw [word]; rfl)
  intro s₁ took
  have lt := took.place_lt
  -- the name of the namespace is read where its first word stands
  have named := package_name_reads took.underway.sound.enter.underway
  refine .bind (named.from_ took.onward) ?_
  rintro package s₂ ⟨⟨name, le₂⟩, clean⟩
  have underway : Underway c s s₂ [] := took.underway.gather lt (name.toGathered.leave outside)
  let s₃ : ParserState := { s₂ with names := .ofNamespace package }
  have renamed : Underway c s s₃ [] := underway.renamed (.inl outside) fun _ => clean
  refine .bind (R := fun _ s' => s' = s₃) rfl ?_
  rintro - _ rfl
  have place : s₃.place = s₂.place := rfl
  refine .bind (namespace_body_reads renamed (by omega) fun s₄ sound onward => ?_) ?_
  · have le₄ := onward.place_le
    exact each s₄ sound (onward.tokens.trans renamed.onward.tokens) (by omega)
  rintro ids s₄ ⟨⟨underway, le₄⟩, onward, parted⟩
  have fits : Fits c s₄ (.namespace_ package) := by
    refine ⟨fun _ space floor inside => ?_, fun _ => clean⟩
    rw [outside] at inside
    cases inside
  refine (finish_reads underway (by omega) (.of_free rfl) fits).mono fun i s₅ pushed => ?_
  refine ⟨pushed.atom rfl, fun none => ?_⟩
  have none : s₄.errors = [] := pushed.errors ▸ none
  have parted := parted none
  have named := (name.toGathered.parted (onward.clean none)).congr took.nodes took.names rfl rfl
  obtain ⟨n, found, kind, children⟩ := pushed.node
  have isNamespace : namespaceAt s₅.nodes i = true := by
    rw [namespaceAt, pushed.kind_at]
    rfl
  constructor
  case items => simp [Arranged, isNamespace]
  case package => simp [isNamespace]
  case spaces =>
    have linked := underway.sound.wellFormed.linked
    have spaced := named.spaces.then name.sound.wellFormed.linked onward.grown parted.spaces
    refine spaced.push linked pushed.develops pushed.size (pushed.index ▸ found) ?_ ?_
    · rw [children]
      exact fun j => underway.pending.lt_size
    · intro space same
      rw [kind] at same
      cases same
      rw [children]
      exact parted.items

/-- Every namespace around a statement took a token, so the fuel lasts. -/
theorem top_statement_reads {fuel : Nat} (sound : Sound c s) (top : c.depth = 0)
    (outside : c.space = none) (enough : s.tokens.size ≤ s.place + fuel) :
    Reads s (Parser.topStatement fuel) s fun ids s' =>
      (Gathered c s s' ids ∧ s.place < s'.place) ∧ (s'.errors = [] → Parted s s' ids) := by
  induction fuel generalizing s with
  | zero => exact absurd s.place_lt (Nat.not_lt_of_le enough)
  | succ fuel ih =>
    have leaves {ids : List Nat} {s' : ParserState} (gathered : Gathered (c.within s) s s' ids)
        (lt : s.place < s'.place) :
        (Gathered c s s' ids ∧ s.place < s'.place) ∧ (s'.errors = [] → Parted s s' ids) :=
      ⟨⟨gathered.leave outside, lt⟩, gathered.parted⟩
    refine .current <| .ahead <| .ite (fun isNamespace => ?_) fun _ =>
      .ite (fun word => ?_) fun _ => ?_
    · rw [Bool.and_eq_true, decide_eq_true_eq] at isNamespace
      refine .bind (namespace_declaration_reads sound outside isNamespace.1
        fun s₁ sound tokens lt => ?_) ?_
      · exact ih sound (by rw [tokens]; omega)
      · exact fun i s' ⟨atom, parted⟩ => ⟨⟨atom.toGathered, atom.place_lt⟩, parted⟩
    · exact (imports_reads sound.enter word).mono fun ids s' holds =>
        leaves holds.1.toGathered holds.2
    · have top : (c.within s).depth = 0 := top
      refine .bind (readers_outermost.statement top sound.enter) fun r s' stated => ?_
      cases r with
      | none => exact leaves stated.1 stated.2
      | some i =>
        have made : Made (c.within s) s i s' := stated
        exact leaves made.toGathered made.place_lt

structure Complete (s : ParserState) : Prop where
  shaped : Shaped s.tokens s.nodes
  lawful : s.errors = [] → ∀ i n, s.nodes[i]? = some n → Lawful s.tokens [] s.nodes i n
  noted : ∀ e ∈ s.errors, e.fault.isRecoverable ∧ ∃ t ∈ s.tokens, t.span = e.span
  sorted : s.errors.Pairwise fun e f => e.span.start < f.span.start
  passed : ∀ k t, s.tokens[k]? = some t → t.kind.isError → Overlooked s.tokens s.errors k
  worded : s.errors = [] → ∀ (i : Nat) (n : Node), s.nodes[i]? = some n → n.kind.Clean

/-- The root of a tree and each namespace of it keep what they have in front of the first
namespace among their children in their own namespace. -/
structure Laid (nodes : Array Node) (root : Nat) : Prop where
  root : ∃ n, nodes[root]? = some n ∧ n.kind = .compilationUnit ∧ Arranged nodes "" n.children
  spaces : Spaced 0 nodes

theorem Parted.laid {nodes : Array Node} {span : Span} (parted : Parted s s' ids)
    (fresh : s.nodes.size = 0) (global : s.names.package = "") (linked : Linked s'.nodes)
    (inside : ∀ i ∈ ids, i < s'.nodes.size)
    (whole : nodes = adopt s'.nodes .compilationUnit span ids) : Laid nodes s'.nodes.size := by
  have arranged : Arranged s'.nodes "" ids := global ▸ parted.items
  have spaced : Spaced 0 s'.nodes := fresh ▸ parted.spaces
  subst whole
  constructor
  · exact ⟨_, adopt_new, rfl, arranged.develops adopt_develops inside⟩
  · exact spaced.push linked adopt_develops size_adopt adopt_new inside fun _ no => nomatch no

/-- Without errors no token was overlooked. -/
theorem Complete.clean (complete : Complete s) (none : s.errors = []) :
    ∀ t ∈ s.tokens, t.kind.isError = false := by
  intro t member
  obtain ⟨k, found⟩ := Array.mem_iff_getElem?.mp member
  by_contra isError
  obtain ⟨e, noted, -⟩ := complete.passed k t found (by simpa using isError)
  rw [none] at noted
  cases noted

/-- At the end of a file no token is left. -/
theorem Valid.passed_all (valid : Valid s) (ends : s.token.kind = .eof) (k : Nat) (t : Token)
    (found : s.tokens[k]? = some t) (isError : t.kind.isError) :
    Overlooked s.tokens s.errors k := by
  have last := valid.lexed.last s.place s.token s.token_at ends
  have low := (Array.getElem?_eq_some_iff.mp found).1
  by_cases before : k < s.place
  · exact valid.passed k t before found isError
  · have same : k = s.place := by omega
    rw [same, s.token_at] at found
    rw [← Option.some.inj found, ends] at isError
    cases isError

/-- The span from the first to the last of the nodes of a file. -/
theorem hull_reads {first : Nat} {rest : List Nat}
    (gathered : Gathered c origin s (first :: rest)) :
    Reads origin (Parser.hull (first :: rest)) s fun span s' =>
      s' = s ∧ Anchored s.tokens span ∧
        Pending origin.nodes.size s.nodes span.start span.stop (first :: rest) := by
  have getLast := List.getLast?_eq_some_getLast (List.cons_ne_nil first rest)
  have pending := gathered.pending.from_first.to_last getLast
  obtain ⟨n, found, -⟩ := gathered.pending.each first List.mem_cons_self
  obtain ⟨m, found', -, -, start_le, -, -⟩ := pending.each _ (List.mem_of_getLast? getLast)
  obtain ⟨-, -, -, -, -, -, stop_le⟩ := pending.each first List.mem_cons_self
  have anchored := gathered.sound.wellFormed.anchored
  unfold Parser.hull
  rw [getLast]
  refine .bind (node_at_reads found) ?_
  rintro _ _ ⟨rfl, rfl⟩
  refine .bind (node_at_reads found') ?_
  rintro _ _ ⟨rfl, rfl⟩
  refine ⟨rfl, (anchored _ _ found).merge (anchored _ _ found'), pending.mono ?_ ?_⟩
  · rw [Span.start_merge, span_at_of_eq found]
    exact Nat.min_le_left ..
  · rw [Span.stop_merge, span_at_of_eq found']
    exact Nat.le_max_right ..

theorem compilation_unit_reads (sound : Sound ⟨0, [], none⟩ s) (fresh : s.nodes.size = 0)
    (global : s.names.package = "") :
    Reads s Parser.compilationUnit s fun root s' =>
      Complete s' ∧ s'.tokens = s.tokens ∧ (s'.errors = [] → Laid s'.nodes root) := by
  have items := items_reads (fun _ => false) (do Parser.topStatement (← Parser.remaining)) sound
    fun s₁ sound _ => .remaining <| top_statement_reads sound rfl rfl (by omega)
  refine .bind items ?_
  rintro ids s₁ ⟨⟨gathered, parted⟩, ends⟩
  have ends : s₁.token.kind = .eof := ends.resolve_right fun no => nomatch no
  have valid := gathered.sound.toValid
  have passed := valid.passed_all ends
  have noted : ∀ e ∈ s₁.errors, e.fault.isRecoverable ∧ ∃ t ∈ s₁.tokens, t.span = e.span :=
    fun e member => (valid.noted e member).imp_right And.left
  have laid {nodes : Array Node} {span : Span}
      (whole : nodes = adopt s₁.nodes .compilationUnit span ids) (none : s₁.errors = []) :
      Laid nodes s₁.nodes.size :=
    (parted none).laid fresh global valid.wellFormed.linked (fun i => gathered.pending.lt_size)
      whole
  cases ids with
  | nil =>
    refine .bind (R := fun span s' => span = .origin ∧ s' = s₁) ⟨rfl, rfl⟩ ?_
    rintro _ _ ⟨rfl, rfl⟩
    refine .get <| .ite (fun _ => ⟨?_, gathered.onward.tokens, laid rfl⟩) fun no => absurd rfl no
    refine ⟨valid.wellFormed.shaped_empty, fun none i n found => ?_, noted, valid.sorted, passed,
      fun none i n found => ?_⟩
    · exact .adopt valid.wellFormed.linked (by simp) (gathered.sound.lawful none) (.of_plain rfl)
        found
    · rcases adopt_cases found with ⟨rfl, rfl⟩ | ⟨old, low, here, same⟩
      · trivial
      · have kept := (gathered.sound.worded none).kinds i old here
        rw [same]
        split <;> exact kept
  | cons first rest =>
    refine .bind (hull_reads gathered) ?_
    rintro span _ ⟨rfl, anchored, pending⟩
    refine (push_places gathered.sound gathered.onward pending anchored (Nat.le_refl _)
      (Nat.le_refl _) (.of_plain rfl) (.of_plain rfl)).mono ?_
    rintro i _ ⟨sound, onward, -, rfl, rfl⟩
    exact ⟨⟨sound.wellFormed.shaped, sound.lawful, noted, valid.sorted, passed,
      fun none => (sound.worded none).kinds⟩, onward.tokens, laid rfl⟩

end PhpAnalyser
