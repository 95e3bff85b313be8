import PhpAnalyser.Proofs.Grammar.Judgement
/-!
What the readers do that all productions are made of.
-/
namespace PhpAnalyser

variable {c : Setting} {origin s : ParserState} {ids : List Nat}

structure Took (c : Setting) (origin : ParserState) (ids : List Nat) (s s' : ParserState) : Prop
    where
  underway : Underway c origin s' ids
  onward : Onward s s'
  place : s'.place = s.place + 1
  last : s'.last = s.token.span
  errors : s'.errors = s.errors
  nodes : s'.nodes = s.nodes
  names : s'.names = s.names

theorem Took.place_lt {s' : ParserState} (took : Took c origin ids s s') : s.place < s'.place := by
  rw [took.place]
  exact Nat.lt_succ_self _

/-- The token behind the current one becomes the current one. -/
theorem Took.token_eq {s' : ParserState} (took : Took c origin ids s s') :
    s'.token = s.stream.peek 1 := by
  have low := s'.place_lt
  have found := s'.token_at
  rw [took.onward.tokens, took.place] at found low
  have place : min (s.stream.position + 1) (s.stream.tokens.size - 1) = s.place + 1 := by
    change min (s.place + 1) (s.tokens.size - 1) = s.place + 1
    omega
  simp only [TokenStream.peek, place]
  exact (Array.getElem?_eq_some_iff.mp found).2.symm

theorem Underway.took (underway : Underway c origin s ids) (ordinary : s.token.kind.isOrdinary) :
    Took c origin ids s s.advance where
  underway := underway.step ordinary
  onward := underway.sound.onward_advance
  place := place_advance (TokenKind.ne_of_ordinary ordinary rfl)
  last := last_step ordinary
  errors := errors_advance
  nodes := nodes_advance
  names := names_advance

def Takes (least : Nat) (c : Setting) (p : Parser α) : Prop :=
  ∀ origin s ids, Underway c origin s ids →
    Reads origin p s fun _ s' => Underway c origin s' ids ∧ s.place + least ≤ s'.place

theorem skip_reads (underway : Underway c origin s ids) (ordinary : s.token.kind.isOrdinary) :
    Reads origin Parser.skip s fun _ s' => Took c origin ids s s' :=
  underway.took ordinary

theorem advance_reads (underway : Underway c origin s ids) (ordinary : s.token.kind.isOrdinary) :
    Reads origin Parser.advance s fun t s' => t = s.token ∧ Took c origin ids s s' :=
  .current <| .bind (R := fun _ s' => Took c origin ids s s') (underway.took ordinary)
    fun _ _ took => ⟨rfl, took⟩

theorem unexpected_reads {expected : List String} {Q : α → ParserState → Prop} (valid : Valid s)
    (onward : Onward origin s) : Reads origin (Parser.unexpected expected) s Q where
  valid := valid
  onward := onward
  located := ⟨s.token, s.token_mem, rfl⟩
  start_le := Nat.le_refl _
  noted_lt f member := (valid.noted f member).2.2
  resumes recoverable := by
    cases kind : s.stream.current.kind with
    | eof =>
      simp only [kind] at recoverable
      cases recoverable
    | error fault =>
      simp only [kind] at recoverable
      cases recoverable
    | _ => simp [ParserState.token, kind, TokenKind.isError]

theorem expect_reads {kind : TokenKind} {expected : String} (underway : Underway c origin s ids)
    (ordinary : kind.isOrdinary) :
    Reads origin (Parser.expect kind expected) s fun t s' =>
      t = s.token ∧ t.kind = kind ∧ Took c origin ids s s' := by
  refine .check (fun same => ?_) (fun _ => ?_)
  · refine (advance_reads underway (same ▸ ordinary)).mono ?_
    rintro t s' ⟨rfl, took⟩
    exact ⟨rfl, same, took⟩
  · exact unexpected_reads underway.sound.toValid underway.onward

theorem discard_expect_reads {kind : TokenKind} {expected : String}
    (underway : Underway c origin s ids) (ordinary : kind.isOrdinary) :
    Reads origin (discard (Parser.expect kind expected)) s fun _ s' => Took c origin ids s s' :=
  .discard <| (expect_reads underway ordinary).mono fun _ _ expected => expected.2.2

theorem eat_cases {kind : TokenKind} (underway : Underway c origin s ids)
    (ordinary : kind.isOrdinary) :
    Reads origin (Parser.eat kind) s fun eaten s' =>
      (eaten = true ∧ s.token.kind = kind ∧ Took c origin ids s s') ∨
        (eaten = false ∧ s.token.kind ≠ kind ∧ s' = s) := by
  refine .check (fun same => ?_) (fun other => .inr ⟨rfl, other, rfl⟩)
  exact .bind (skip_reads underway (same ▸ ordinary)) fun _ s' took => .inl ⟨rfl, same, took⟩

theorem eat_reads {kind : TokenKind} (underway : Underway c origin s ids)
    (ordinary : kind.isOrdinary) :
    Reads origin (Parser.eat kind) s fun eaten s' =>
      Underway c origin s' ids ∧ s.place ≤ s'.place ∧ (eaten → s.place < s'.place) := by
  refine (eat_cases underway ordinary).mono fun eaten s' cases_ => ?_
  rcases cases_ with ⟨rfl, -, took⟩ | ⟨rfl, -, rfl⟩
  · exact ⟨took.underway, Nat.le_of_lt took.place_lt, fun _ => took.place_lt⟩
  · exact ⟨underway, Nat.le_refl _, fun no => nomatch no⟩

theorem eat_operator_reads {op : String} (underway : Underway c origin s ids) :
    Reads origin (Parser.eatOperator op) s fun eaten s' =>
      Underway c origin s' ids ∧ s.place ≤ s'.place ∧ (eaten → s.place < s'.place) := by
  refine .checkOperator (fun same _ => ?_) ?_
  · have ordinary : s.token.kind.isOrdinary := by rw [same]; rfl
    refine .bind (skip_reads underway ordinary) fun _ s' took => ?_
    exact ⟨took.underway, Nat.le_of_lt took.place_lt, fun _ => took.place_lt⟩
  · exact ⟨underway, Nat.le_refl _, fun no => nomatch no⟩

theorem discard_eat_reads {kind : TokenKind} (underway : Underway c origin s ids)
    (ordinary : kind.isOrdinary) :
    Reads origin (discard (Parser.eat kind)) s fun _ s' =>
      Underway c origin s' ids ∧ s.place ≤ s'.place :=
  .discard <| (eat_reads underway ordinary).mono fun _ _ eaten => ⟨eaten.1, eaten.2.1⟩

theorem discard_eat_operator_reads {op : String} (underway : Underway c origin s ids) :
    Reads origin (discard (Parser.eatOperator op)) s fun _ s' =>
      Underway c origin s' ids ∧ s.place ≤ s'.place :=
  .discard <| (eat_operator_reads underway).mono fun _ _ eaten => ⟨eaten.1, eaten.2.1⟩

theorem expect_operator_reads {op expected : String} (underway : Underway c origin s ids) :
    Reads origin (Parser.expectOperator op expected) s fun _ s' => Took c origin ids s s' := by
  refine .checkOperator (fun same _ => ?_) ?_
  · exact skip_reads underway (by rw [same]; rfl)
  · exact unexpected_reads underway.sound.toValid underway.onward

/-! What is read behind a token that is taken. -/

section Tokens

variable {Q : β → ParserState → Prop}

theorem Reads.advance {f : Token → Parser β} (underway : Underway c origin s ids)
    (ordinary : s.token.kind.isOrdinary)
    (next : ∀ s', Took c origin ids s s' → Reads origin (f s.token) s' Q) :
    Reads origin (Parser.advance >>= f) s Q := by
  refine .bind (advance_reads underway ordinary) ?_
  rintro _ s' ⟨rfl, took⟩
  exact next s' took

theorem Reads.skip {f : Unit → Parser β} (underway : Underway c origin s ids)
    (ordinary : s.token.kind.isOrdinary)
    (next : ∀ s', Took c origin ids s s' → Reads origin (f ()) s' Q) :
    Reads origin (Parser.skip >>= f) s Q :=
  .bind (skip_reads underway ordinary) fun _ s' took => next s' took

/-- A token that only has to be there. -/
theorem Reads.mark {kind : TokenKind} {expected : String} {f : Unit → Parser β}
    (underway : Underway c origin s ids) (ordinary : kind.isOrdinary)
    (next : ∀ s', Took c origin ids s s' → Reads origin (f ()) s' Q) :
    Reads origin (Functor.discard (Parser.expect kind expected) >>= f) s Q :=
  .bind (discard_expect_reads underway ordinary) fun _ s' took => next s' took

theorem Takes.then {least : Nat} {p : Parser α} {f : α → Parser β} (takes : Takes least c p)
    (underway : Underway c origin s ids)
    (next : ∀ a s', Underway c origin s' ids → s.place + least ≤ s'.place →
      Reads origin (f a) s' Q) : Reads origin (p >>= f) s Q :=
  .bind (takes origin s ids underway) fun a s' holds => next a s' holds.1 holds.2

/-- What was known at `s` can be used behind what is taken there. -/
theorem Takes.behind {least : Nat} {p : Parser α} {f : α → Parser β} (takes : Takes least c p)
    (underway : Underway c origin s ids)
    (next : ∀ a s', Underway c origin s' ids → Onward s s' → s.place + least ≤ s'.place →
      Reads origin (f a) s' Q) : Reads origin (p >>= f) s Q := by
  refine .bind ((takes s s [] underway.sound.underway).from_ underway.onward) ?_
  rintro a s' ⟨more, le⟩
  exact next a s' (by simpa using underway.then more) more.onward le

end Tokens

structure Pushed (c : Setting) (origin : ParserState) (kind : NodeKind) (children : List Nat)
    (s : ParserState) (i : Nat) (s' : ParserState) : Prop extends Made c origin i s' where
  index : i = s.nodes.size
  stream : s'.stream = s.stream
  last : s'.last = s.last
  node : ∃ n, s'.nodes[i]? = some n ∧ n.kind = kind ∧ n.children = children
  size : s'.nodes.size = s.nodes.size + 1
  names : s'.names = s.names
  errors : s'.errors = s.errors
  develops : Develops s.nodes s'.nodes

structure Atom (c : Setting) (origin : ParserState) (i : Nat) (s : ParserState) : Prop extends
    Made c origin i s where
  power : powerAt s.nodes i = none

theorem Reads.made {p : Parser Nat} {origin s : ParserState}
    (reads : Reads origin p s (Atom c origin)) : Reads origin p s (Made c origin) :=
  reads.mono fun _ _ atom => atom.toMade

theorem Pushed.kind_at {origin s s' : ParserState} {kind : NodeKind} {children : List Nat} {i : Nat}
    (pushed : Pushed c origin kind children s i s') : kindAt s'.nodes i = some kind := by
  obtain ⟨n, found, same, -⟩ := pushed.node
  rw [kindAt, found, Option.map_some, same]

theorem Pushed.atom {origin s s' : ParserState} {kind : NodeKind} {children : List Nat} {i : Nat}
    (pushed : Pushed c origin kind children s i s') (power : kind.power? = none) :
    Atom c origin i s' where
  toMade := pushed.toMade
  power := by rw [powerAt, pushed.kind_at, Option.bind_some, power]

theorem node_at_reads {i : Nat} {n : Node} (found : s.nodes[i]? = some n) :
    Reads origin (Parser.nodeAt i) s fun m s' => m = n ∧ s' = s := by
  refine .get ?_
  rw [found]
  exact ⟨rfl, rfl⟩

theorem kind_of_reads {i : Nat} {n : Node} (found : s.nodes[i]? = some n) :
    Reads origin (Parser.kindOf i) s fun kind s' => kind = n.kind ∧ s' = s := by
  refine .bind (node_at_reads found) ?_
  rintro _ _ ⟨rfl, rfl⟩
  exact ⟨rfl, rfl⟩

theorem span_from_node_reads {i : Nat} {n : Node} (found : s.nodes[i]? = some n) :
    Reads origin (Parser.spanFromNode i) s fun span s' => span = n.span.merge s.last ∧ s' = s := by
  refine .bind (node_at_reads found) ?_
  rintro _ _ ⟨rfl, rfl⟩
  exact ⟨rfl, rfl⟩

/-! The span of everything read since the start of a construct. -/

theorem Underway.start_eq (underway : Underway c origin s ids) (lt : origin.place < s.place) :
    (origin.token.span.merge s.last).start = origin.here := by
  rw [Span.start_merge]
  exact Nat.min_eq_left (underway.begun lt).start_le

theorem Underway.token_stop_le (underway : Underway c origin s ids) (lt : origin.place < s.place) :
    origin.token.span.stop ≤ s.last.stop := by
  have token := underway.onward.tokens ▸ origin.token_at
  refine (underway.sound.taken _ _ lt token).resolve_left ?_
  exact TokenKind.ne_of_ordinary (underway.begun lt).ordinary rfl

theorem Underway.stop_eq (underway : Underway c origin s ids) (lt : origin.place < s.place) :
    (origin.token.span.merge s.last).stop = s.last.stop := by
  rw [Span.stop_merge]
  exact Nat.max_eq_right (underway.token_stop_le lt)

section Push

variable {kind : NodeKind} {span : Span} {children : List Nat} {lo hi : Nat}

theorem Sound.pushed (sound : Sound c s) {floor : Nat}
    (pending : Pending floor s.nodes lo hi children) (anchored : Anchored s.tokens span)
    (start_le : span.start ≤ lo) (le_stop : hi ≤ span.stop)
    (law : Lawful s.tokens c.loose s.nodes s.nodes.size ⟨kind, span, none, children, none, []⟩)
    (fits : Fits c s kind) :
    Sound c { s with nodes := adopt s.nodes kind span children } where
  lexed := sound.lexed
  wellFormed := sound.wellFormed.adopt pending anchored start_le le_stop
  last := sound.last
  last_le := sound.last_le
  taken := sound.taken
  noted := sound.noted
  sorted := sound.sorted
  passed := sound.passed
  depth := sound.depth
  lawful none i n found := by
    exact .adopt sound.wellFormed.linked (fun c => pending.lt_size) (sound.lawful none) law found
  housed none space floor inside := by
    have housed := sound.housed none space floor inside
    refine ⟨housed.package, fun i n from_ found => ?_⟩
    rcases adopt_cases found with ⟨rfl, rfl⟩ | ⟨old, low, here, same⟩
    · exact fits.inside none space floor inside
    · have kept := housed.kinds i old from_ here
      rw [same]
      split <;> exact kept
  worded none := by
    have worded := sound.worded none
    refine ⟨worded.package, fun i n found => ?_⟩
    rcases adopt_cases found with ⟨rfl, rfl⟩ | ⟨old, low, here, same⟩
    · exact fits.clean none
    · have kept := worded.kinds i old here
      rw [same]
      split <;> exact kept

structure Placed (c : Setting) (origin : ParserState) (kind : NodeKind) (span : Span)
    (children : List Nat) (s : ParserState) (i : Nat) (s' : ParserState) : Prop where
  sound : Sound c s'
  onward : Onward origin s'
  pending : Pending origin.nodes.size s'.nodes span.start span.stop [i]
  index : i = s.nodes.size
  state : s' = { s with nodes := adopt s.nodes kind span children }

/-- A node can be put above nodes that were made on the way from `origin`. -/
theorem push_places (sound : Sound c s) (onward : Onward origin s)
    (pending : Pending origin.nodes.size s.nodes lo hi children)
    (anchored : Anchored s.tokens span) (start_le : span.start ≤ lo) (le_stop : hi ≤ span.stop)
    (law : Lawful s.tokens c.loose s.nodes s.nodes.size ⟨kind, span, none, children, none, []⟩)
    (fits : Fits c s kind) :
    Reads origin (Parser.push kind span children) s (Placed c origin kind span children s) := by
  have all : children.all (· < s.nodes.size) = true := by
    simpa using fun i member => pending.lt_size member
  have made : ∀ i ∈ children, origin.nodes.size ≤ i := by
    intro i member
    obtain ⟨-, -, from_, -⟩ := pending.each i member
    exact from_
  refine .get <| .ite (fun _ => ?_) fun no => absurd all no
  change Placed c origin kind span children s s.nodes.size _
  exact {
    sound := sound.pushed pending anchored start_le le_stop law fits
    onward := { onward with grown := extends_adopt onward.grown made }
    pending := pending_adopt anchored.extent onward.grown.size_le
    index := rfl
    state := rfl }

theorem push_reads (underway : Underway c origin s ids) (lt : origin.place < s.place)
    (pending : Pending origin.nodes.size s.nodes lo hi children)
    (anchored : Anchored s.tokens span) (start_le : span.start ≤ lo) (le_stop : hi ≤ span.stop)
    (inside : origin.here ≤ span.start) (within : span.stop ≤ s.last.stop)
    (law : Lawful s.tokens c.loose s.nodes s.nodes.size ⟨kind, span, none, children, none, []⟩)
    (fits : Fits c s kind) :
    Reads origin (Parser.push kind span children) s (Pushed c origin kind children s) := by
  refine (push_places underway.sound underway.onward pending anchored start_le le_stop law
    fits).mono ?_
  intro i s' placed
  obtain ⟨sound, onward, pending, rfl, rfl⟩ := placed
  have began := underway.begun lt
  exact {
    valid := underway.valid
    sound := sound
    onward := onward
    pending := pending.mono inside within
    begun := fun _ => ⟨began.ordinary, began.start_le, began.stop_lt⟩
    place_lt := lt
    index := rfl
    stream := rfl
    last := rfl
    node := ⟨_, adopt_new, rfl, rfl⟩
    size := size_adopt
    names := rfl
    errors := rfl
    develops := adopt_develops }

/-- A node over everything read since the start of the construct. -/
theorem finish_reads (underway : Underway c origin s ids) (lt : origin.place < s.place)
    (law : Lawful s.tokens c.loose s.nodes s.nodes.size
      ⟨kind, origin.token.span.merge s.last, none, ids, none, []⟩) (fits : Fits c s kind) :
    Reads origin (Parser.finish kind origin.token.span ids) s (Pushed c origin kind ids s) := by
  have began := underway.begun lt
  have valid := underway.sound.toValid
  have anchored := (began.anchored_start underway.onward valid).merge (began.anchored_last valid)
  have start := underway.start_eq lt
  have stop := underway.stop_eq lt
  exact .get <| push_reads underway lt underway.pending anchored (Nat.le_of_eq start)
    (Nat.le_of_eq stop.symm) (Nat.le_of_eq start.symm) (Nat.le_of_eq stop) law fits

theorem leaf_reads (ordinary : origin.token.kind.isOrdinary)
    (took : Took c origin [] origin s) (plain : kind.isPlain) :
    Reads origin (Parser.push kind origin.token.span []) s (Pushed c origin kind [] s) := by
  have anchored : Anchored s.tokens origin.token.span :=
    .of_ordinary took.underway.sound.lexed (took.underway.onward.tokens ▸ origin.token_mem) ordinary
  have none_yet : Pending origin.nodes.size s.nodes origin.here origin.here [] := .nil
  exact push_reads took.underway took.place_lt none_yet anchored
    (Nat.le_refl _) (Nat.le_of_lt anchored.extent) (Nat.le_refl _)
    (Nat.le_of_eq (congrArg Span.stop took.last.symm)) (.of_plain plain) (.of_plain plain)

/-- A node over `base`, which is its first child, and what was read behind it. -/
theorem wrap_reads {base : Nat} {rest : List Nat} (underway : Underway c origin s (base :: rest))
    (lt : origin.place < s.place)
    (law : ∀ span,
      Lawful s.tokens c.loose s.nodes s.nodes.size ⟨kind, span, none, base :: rest, none, []⟩)
    (fits : Fits c s kind) :
    Reads origin (Parser.wrap kind base rest) s (Pushed c origin kind (base :: rest) s) := by
  have began := underway.begun lt
  have valid := underway.sound.toValid
  obtain ⟨n, found, -, -, low, -, high⟩ := underway.pending.each base List.mem_cons_self
  have anchored := (valid.wellFormed.anchored base n found).merge (began.anchored_last valid)
  have pending := underway.pending.from_first
  have start_le := began.start_le
  rw [span_at_of_eq found] at pending
  refine .bind (span_from_node_reads found) ?_
  rintro _ _ ⟨rfl, rfl⟩
  refine push_reads underway lt pending anchored ?_ ?_ ?_ ?_ (law _) fits
  · rw [Span.start_merge]
    exact Nat.min_le_left ..
  · rw [Span.stop_merge]
    exact Nat.le_max_right ..
  · rw [Span.start_merge]
    exact Nat.le_min.mpr ⟨low, start_le⟩
  · rw [Span.stop_merge]
    exact Nat.max_le.mpr ⟨high, Nat.le_refl _⟩

end Push

/-- A finished construct can be given a comment. -/
theorem set_doc_comment_reads {i : Nat} {doc : Option String} (made : Made c origin i s) :
    Reads origin (Parser.setDocComment i doc) s fun _ s' => Made c origin i s' := by
  have low : i < s.nodes.size := made.pending.lt_size (List.mem_singleton.mpr rfl)
  obtain ⟨-, -, later, -⟩ := made.pending.each i (List.mem_singleton.mpr rfl)
  refine .get <| .ite (fun _ => ?_) fun no => absurd low no
  change Made c origin i { s with nodes := annotate s.nodes i doc }
  have sound : Sound c { s with nodes := annotate s.nodes i doc } := {
    made.sound with
    wellFormed := made.sound.wellFormed.annotate
    lawful := by
      intro none j n found
      obtain ⟨old, here, kind, span, -, children⟩ := annotate_cases found
      exact (made.sound.lawful none j old here).develops annotate_develops
        (made.sound.wellFormed.linked.children_lt here) kind span children
    housed := by
      intro none space floor inside
      have housed := made.sound.housed none space floor inside
      refine ⟨housed.package, fun j n from_ found => ?_⟩
      obtain ⟨old, here, kind, -⟩ := annotate_cases found
      rw [kind]
      exact housed.kinds j old from_ here
    worded := by
      intro none
      have worded := made.sound.worded none
      refine ⟨worded.package, fun j n found => ?_⟩
      obtain ⟨old, here, kind, -⟩ := annotate_cases found
      rw [kind]
      exact worded.kinds j old here }
  exact {
    valid := made.valid
    sound := sound
    onward := { made.onward with grown := extends_annotate made.onward.grown later }
    pending := made.pending.annotate
    begun := fun lt => { made.begun lt with }
    place_lt := made.place_lt }

theorem Sound.close (sound : Sound c s) (isEnd : s.token.kind.isStatementEnd) :
    Gathered c s s.advance [] ∧ s.place < s.advance.place := by
  have more : s.token.kind ≠ .eof := fun same => by rw [same] at isEnd; cases isEnd
  have closed : Sound c s.advance := by
    refine sound.advance fun isError => ?_
    cases kind : s.token.kind with
    | error _ =>
      rw [kind] at isEnd
      cases isEnd
    | _ =>
      rw [kind] at isError
      cases isError
  refine ⟨.nothing sound.toValid closed sound.onward_advance, ?_⟩
  rw [place_advance more]
  exact Nat.lt_succ_self _

/-- A close tag ends a construct without being a part of it. -/
theorem Underway.close (underway : Underway c origin s ids) (lt : origin.place < s.place)
    (isEnd : s.token.kind.isStatementEnd) :
    Underway c origin s.advance ids ∧ s.place < s.advance.place := by
  obtain ⟨gathered, further⟩ := underway.sound.close isEnd
  have closed := underway.gather lt gathered
  rw [List.append_nil] at closed
  exact ⟨closed, further⟩

theorem last_close (closes : s.token.kind = .closeTag) : s.advance.last = s.last := by
  have more : s.token.kind ≠ .eof := by rw [closes]; exact fun no => nomatch no
  rw [last_advance more, if_pos closes]

theorem finish_statement_reads {start : Span} (underway : Underway c origin s ids)
    (lt : origin.place < s.place) :
    Reads origin (Parser.finishStatement start) s fun span s' =>
      span = start.merge s'.last ∧ s' = s.advance ∧ s.token.kind.isStatementEnd ∧
        Underway c origin s' ids ∧ s.place < s'.place := by
  refine .current <| .ite (fun isSemicolon => ?_) fun _ => .ite (fun isClose => ?_) fun _ => ?_
  · have isEnd : s.token.kind.isStatementEnd := by
      rw [show s.token.kind = .semicolon from isSemicolon]
      rfl
    exact ⟨rfl, rfl, isEnd, underway.close lt isEnd⟩
  · have isEnd : s.token.kind.isStatementEnd := by
      rw [show s.token.kind = .closeTag from isClose]
      rfl
    have last := last_close (s := s) isClose
    exact ⟨congrArg start.merge last.symm, rfl, isEnd, underway.close lt isEnd⟩
  · exact unexpected_reads underway.sound.toValid underway.onward

theorem finish_atom {kind : NodeKind} (underway : Underway c origin s ids)
    (lt : origin.place < s.place) (plain : kind.isPlain) :
    Reads origin (Parser.finish kind origin.token.span ids) s (Atom c origin) :=
  (finish_reads underway lt (.of_plain plain) (.of_plain plain)).mono fun _ _ pushed =>
    pushed.atom (power_of_plain plain)

theorem push_statement_reads {kind : NodeKind} (underway : Underway c origin s ids)
    (lt : origin.place < s.place) (plain : kind.isPlain) :
    Reads origin (Parser.pushStatement kind origin.token.span ids) s (Atom c origin) := by
  refine .bind (finish_statement_reads underway lt) ?_
  rintro _ s₁ ⟨rfl, -, -, underway, further⟩
  exact finish_atom underway (Nat.lt_trans lt further) plain

end PhpAnalyser
