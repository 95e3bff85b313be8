import PhpAnalyser.Proofs.Grammar.Primitive
/-!
What readers do that repeat others, and how reading goes on behind an error.
-/
namespace PhpAnalyser

variable {c : Setting} {origin s : ParserState} {ids : List Nat}

theorem Reads.child {p : Parser Nat} {i : Nat → ParserState → Prop}
    (underway : Underway c origin s ids) (reads : Reads s p s i)
    (made : ∀ a s', i a s' → Made c s a s') :
    Reads origin p s fun a s' =>
      Underway c origin s' (ids ++ [a]) ∧ s.place < s'.place ∧ i a s' :=
  (reads.from_ underway.onward).mono fun a s' holds =>
    ⟨underway.then (made a s' holds).toUnderway, (made a s' holds).place_lt, holds⟩

theorem Reads.part {p : Parser Nat} (underway : Underway c origin s ids)
    (reads : Reads s p s (Made c s)) :
    Reads origin p s fun a s' => Underway c origin s' (ids ++ [a]) ∧ s.place < s'.place :=
  (reads.from_ underway.onward).mono fun _ _ made => ⟨underway.then made.toUnderway, made.place_lt⟩

/-- What is read behind a part that is one node. -/
theorem Reads.below {p : Parser Nat} {f : Nat → Parser β} {Q : β → ParserState → Prop}
    (underway : Underway c origin s ids) (reads : Reads s p s (Made c s))
    (next : ∀ a s', Underway c origin s' (ids ++ [a]) → s.place < s'.place →
      Reads origin (f a) s' Q) : Reads origin (p >>= f) s Q :=
  .bind (.part underway reads) fun a s' holds => next a s' holds.1 holds.2

theorem Reads.parts {p : Parser (List Nat)} (underway : Underway c origin s ids)
    (reads : Reads s p s fun more s' => Underway c s s' more) :
    Reads origin p s fun more s' => Underway c origin s' (ids ++ more) ∧ s.place ≤ s'.place :=
  (reads.from_ underway.onward).mono fun _ _ more => ⟨underway.then more, more.onward.place_le⟩

theorem Reads.gathered {p : Parser (List Nat)} (underway : Underway c origin s ids)
    (lt : origin.place < s.place) (reads : Reads s p s fun more s' => Gathered c s s' more) :
    Reads origin p s fun more s' => Underway c origin s' (ids ++ more) ∧ s.place ≤ s'.place :=
  (reads.from_ underway.onward).mono fun _ _ more =>
    ⟨underway.gather lt more, more.onward.place_le⟩

theorem Reads.onlyIf {p : Parser α} {wanted : Bool} {Q : List α → ParserState → Prop}
    (yes : wanted = true → Reads origin p s fun a s' => Q [a] s') (no : Q [] s) :
    Reads origin (Parser.onlyIf wanted p) s Q :=
  .ite (fun isWanted => (yes isWanted).bind fun _ _ holds => holds) fun _ => no

theorem Reads.optional {p : Parser Nat} {wanted : Bool} (sound : Sound c s)
    (yes : wanted = true → Reads s p s (Made c s)) :
    Reads s (Parser.onlyIf wanted p) s fun more s' => Underway c s s' more :=
  .onlyIf (fun isWanted => (yes isWanted).mono fun _ _ made => made.toUnderway) sound.underway

structure Clear (c : Setting) (s s' : ParserState) (ids : List Nat) : Prop extends
    Underway c s s' ids where
  clear : Pending s.nodes.size s'.nodes s.here s'.last.start ids

theorem Took.clear {s' : ParserState} (underway : Underway c origin s ids)
    (took : Took c origin ids s s') : Clear c origin s' ids where
  toUnderway := took.underway
  clear := by
    have le : s.last.stop ≤ s'.last.start := by
      rw [took.last]
      exact underway.sound.last_le
    exact (underway.pending.keep took.onward.grown).mono (Nat.le_refl _) le

/-- What is clear of a later part is clear of the whole. -/
theorem Underway.clear {s₁ s₂ : ParserState} {later : List Nat}
    (underway : Underway c origin s₁ ids) (clear : Clear c s₁ s₂ later)
    (lt : s₁.place < s₂.place) : Clear c origin s₂ (ids ++ later) where
  toUnderway := underway.then clear.toUnderway
  clear := underway.pending.append clear.onward.grown clear.clear (Nat.le_refl _)
    underway.onward.grown.size_le (underway.onward.here_le underway.valid)
    underway.sound.last_le (Nat.le_trans underway.sound.last_le (clear.begun lt).start_le)

/-- What one step of a loop leaves: the property `I` to go on, behind another token, or `Q`. -/
def Steps (I Q : β → ParserState → Prop) (s : ParserState) : ForInStep β → ParserState → Prop
  | .done b, s' => Q b s'
  | .yield b, s' => I b s' ∧ s.place < s'.place

theorem iterate_reads {step : β → Parser (ForInStep β)} {I Q : β → ParserState → Prop}
    (tokens : ∀ b s, I b s → s.tokens = origin.tokens)
    (each : ∀ b s, I b s → Reads origin (step b) s (Steps I Q s)) (fuel : Nat) (b : β)
    (s : ParserState) (holds : I b s) (enough : s.tokens.size < s.place + fuel) :
    Reads origin (Parser.iterate step fuel b) s Q := by
  induction fuel generalizing b s with
  | zero => exact absurd s.place_lt (Nat.not_lt_of_lt enough)
  | succ fuel ih =>
    refine .bind (each b s holds) fun r s' steps => ?_
    cases r with
    | done b => exact steps
    | yield b =>
      obtain ⟨again, further⟩ := steps
      refine ih b s' again ?_
      rw [tokens b s' again, ← tokens _ s holds]
      omega

/-- A loop that takes a token whenever it goes on comes to its end. -/
theorem Reads.loop {step : β → Parser (ForInStep β)} {I Q : β → ParserState → Prop} {b : β}
    (tokens : ∀ b s, I b s → s.tokens = origin.tokens) (start : I b s)
    (each : ∀ b s, I b s → Reads origin (step b) s (Steps I Q s)) :
    Reads origin (Parser.repeatFrom b step) s Q := by
  have low := s.place_lt
  exact .remaining <| iterate_reads tokens each _ b s start (by omega)

/-- The nodes `f items` are those of the values read so far. -/
theorem Reads.commaSeparated {item : Parser α} {c : List α → Setting} {f : List α → List Nat}
    (start : Underway (c []) origin s (f []))
    (each : ∀ items s, Underway (c items) origin s (f items) → Reads origin item s fun a s' =>
      Underway (c (items ++ [a])) origin s' (f (items ++ [a])) ∧ s.place < s'.place) :
    Reads origin (Parser.commaSeparated item) s fun items s' =>
      Underway (c items) origin s' (f items) ∧ s.place < s'.place := by
  refine .loop (I := fun items s' => Underway (c items) origin s' (f items) ∧ s.place ≤ s'.place)
    (fun items s' h => h.1.onward.tokens) ⟨start, Nat.le_refl _⟩ ?_
  rintro items s₁ ⟨underway, le⟩
  refine .bind (each items s₁ underway) ?_
  rintro a s₂ ⟨underway, lt⟩
  refine .bind (eat_reads underway rfl) ?_
  rintro eaten s₃ ⟨underway, le', lt'⟩
  refine .ite (fun isEaten => ?_) fun _ => ?_
  · exact ⟨⟨underway, by omega⟩, by omega⟩
  · exact ⟨underway, by omega⟩

theorem comma_separated_reads {item : Parser Nat} (sound : Sound c s)
    (each : ∀ s, Sound c s → Reads s item s (Made c s)) :
    Reads s (Parser.commaSeparated item) s fun items s' =>
      Underway c s s' items ∧ s.place < s'.place :=
  .commaSeparated (c := fun _ => c) (f := id) sound.underway fun _ s₁ underway =>
    .part underway (each s₁ underway.sound)

theorem comma_list_reads {close : TokenKind} {item : Parser Nat} (sound : Sound c s)
    (each : ∀ s, Sound c s → Reads s item s (Made c s)) :
    Reads s (Parser.commaList close item) s fun items s' => Underway c s s' items := by
  refine .loop (I := fun items s' => Underway c s s' items) (fun _ _ h => h.onward.tokens)
    sound.underway fun items s₁ underway => ?_
  refine .check (fun _ => underway) fun _ => ?_
  refine .bind (.part underway (each s₁ underway.sound)) ?_
  rintro a s₂ ⟨underway, lt⟩
  refine .bind (eat_reads underway rfl) ?_
  rintro eaten s₃ ⟨underway, le, -⟩
  exact .ite (fun _ => ⟨underway, by omega⟩) fun _ => underway

structure Passed (s s' : ParserState) : Prop where
  valid : Valid s'
  onward : Onward s s'
  nodes : s'.nodes = s.nodes
  errors : s'.errors = s.errors
  depth : s'.depth = s.depth

theorem Valid.passes (valid : Valid s) : Passed s s :=
  ⟨valid, .refl s, rfl, rfl, rfl⟩

theorem Passed.skip {s' : ParserState} (passed : Passed s s')
    (fine : s'.token.kind.isError → Overlooked s'.tokens s'.errors s'.place) :
    Passed s s'.advance where
  valid := passed.valid.advance fine
  onward := passed.onward.trans passed.valid.onward_advance
  nodes := nodes_advance.trans passed.nodes
  errors := errors_advance.trans passed.errors
  depth := depth_advance.trans passed.depth

/-- A token that is no place to go on leaves the search where it was. -/
theorem Overlooked.advance (overlooked : Overlooked s.tokens s.errors s.place)
    (more : s.token.kind ≠ .eof) (inner : s.token.kind.isBoundary = false) :
    Overlooked s.advance.tokens s.advance.errors s.advance.place := by
  rw [tokens_advance, errors_advance, place_advance more]
  obtain ⟨e, member, j, t, before, found, span, between⟩ := overlooked
  refine ⟨e, member, j, t, Nat.lt_succ_of_lt before, found, span, fun i u low high there => ?_⟩
  rcases Nat.lt_succ_iff_lt_or_eq.mp high with high | rfl
  · exact between i u low high there
  · rw [s.token_at] at there
    rwa [← Option.some.inj there]

theorem synchronize_reads (valid : Valid s.advance)
    (overlooked : Overlooked s.advance.tokens s.advance.errors s.advance.place) :
    Reads s.advance Parser.synchronize s fun _ s' => Passed s.advance s' := by
  refine .bind (R := fun _ s' => s' = s.advance) rfl ?_
  rintro _ _ rfl
  refine .loop (I := fun _ s' => Passed s.advance s' ∧ Overlooked s'.tokens s'.errors s'.place)
    (fun _ _ holds => holds.1.onward.tokens) ⟨valid.passes, overlooked⟩ ?_
  rintro - s₁ ⟨passed, overlooked⟩
  have skips (more : s₁.token.kind ≠ .eof) (inner : s₁.token.kind.isBoundary = false) :
      (Passed s.advance s₁.advance ∧ Overlooked s₁.advance.tokens s₁.advance.errors
        s₁.advance.place) ∧ s₁.place < s₁.advance.place := by
    have place := place_advance more
    exact ⟨⟨passed.skip fun _ => overlooked, overlooked.advance more inner⟩, by omega⟩
  refine .current ?_
  cases kind : s₁.token.kind with
  | eof => exact passed
  | rightBrace => exact passed
  | semicolon => exact passed.skip fun _ => overlooked
  | closeTag => exact passed.skip fun _ => overlooked
  | keyword word =>
    refine .ite (fun _ => passed) fun no => ?_
    refine skips (by rw [kind]; exact fun no => nomatch no) ?_
    rw [kind]
    simpa [TokenKind.isBoundary] using no
  | _ => exact skips (by rw [kind]; exact fun no => nomatch no) (by rw [kind]; rfl)

/-- An error at the current token is in order once that token is behind. -/
theorem Valid.note {e : ParseError} {depth : Nat} (valid : Valid s)
    (recoverable : e.fault.isRecoverable) (span : e.span = s.token.span)
    (more : s.token.kind ≠ .eof) (fine : s.token.kind.isError = false)
    (noted_lt : ∀ f ∈ s.errors, f.span.start < e.span.start) :
    Valid { s.advance with errors := s.errors ++ [e], depth } := by
  have later := valid.advance fun isError => by rw [fine] at isError; cases isError
  have next := valid.stop_le_next more
  have extent := valid.lexed.extent _ s.token_mem more
  refine { later with noted := ?_, sorted := ?_, passed := ?_ }
  · intro f member
    rcases List.mem_append.mp member with member | member
    · exact later.noted f (by rw [errors_advance]; exact member)
    · rw [List.mem_singleton.mp member]
      refine ⟨recoverable, ⟨s.token, ?_, span.symm⟩, ?_⟩
      · exact (tokens_advance (s := s)).symm ▸ s.token_mem
      · rw [span]
        exact Nat.lt_of_lt_of_le extent next
  · refine List.pairwise_append.mpr ⟨valid.sorted, List.pairwise_singleton .., ?_⟩
    intro f member g isE
    rw [List.mem_singleton.mp isE]
    exact noted_lt f member
  · intro k t low found isError
    have overlooked := later.passed k t low found isError
    rw [errors_advance] at overlooked
    exact overlooked.more

/-- An error at the current token starts a search behind it. -/
theorem overlooked_behind {e : ParseError} (member : e ∈ s.errors) (span : e.span = s.token.span)
    (more : s.token.kind ≠ .eof) :
    Overlooked s.advance.tokens s.advance.errors s.advance.place := by
  rw [tokens_advance, errors_advance, place_advance more]
  refine ⟨e, member, s.place, s.token, Nat.lt_succ_self _, s.token_at, span.symm, ?_⟩
  intro i u low high
  exact absurd low (by omega)

/-- Behind an error the nodes made so far stay, and none is asked to hold its operands. -/
theorem recover_reads {e : ParseError} {before : ParserState} (sound : Sound c before)
    (fails : Fails before e s) :
    Reads before (Parser.recover before.depth e) s fun _ s' =>
      Sound c s' ∧ Onward before s' ∧ before.place < s'.place ∧ s'.errors ≠ [] := by
  refine .ite (fun recoverable => ?_) fun _ => fails
  obtain ⟨span, more, fine⟩ := fails.resumes recoverable
  let noted : ParserState := { s with errors := s.errors ++ [e], depth := before.depth }
  have moved : noted.advance =
      { s.advance with errors := s.errors ++ [e], depth := before.depth } := by
    rw [advance_of_more more, advance_of_more (s := noted) more]
    rfl
  have valid : Valid noted.advance := by
    rw [moved]
    exact fails.valid.note recoverable span more fine fails.noted_lt
  have errors : noted.advance.errors ≠ [] := by rw [moved]; simp
  have onward : Onward s noted.advance := by
    rw [moved]
    exact { fails.valid.onward_advance with errors := List.prefix_append .. }
  have place : noted.advance.place = s.place + 1 := place_advance (s := noted) more
  have searches := overlooked_behind (s := noted) (e := e) (by simp [noted]) span more
  have reads := (synchronize_reads valid searches).from_ (fails.onward.trans onward)
  refine .bind (R := fun _ s' => s' = noted) rfl ?_
  rintro _ _ rfl
  refine reads.mono fun _ s' passed => ?_
  have depth : noted.advance.depth = before.depth := by rw [moved]
  have le := passed.onward.place_le
  have le' := fails.onward.place_le
  have failed : s'.errors ≠ [] := passed.errors ▸ errors
  refine ⟨⟨passed.valid, ?_, ?_, ?_, ?_⟩, fails.onward.trans (onward.trans passed.onward), ?_, failed⟩
  · rw [passed.depth, depth, sound.depth]
  · exact fun none => absurd none failed
  · exact fun none => absurd none failed
  · exact fun none => absurd none failed
  · omega

theorem at_end (s : ParserState) : s.stream.atEnd = decide (s.token.kind = .eof) := by
  have low := s.place_lt
  have here : min (s.stream.position + 0) (s.stream.tokens.size - 1) = s.stream.position := by
    change s.stream.position < s.stream.tokens.size at low
    omega
  simp only [TokenStream.atEnd, TokenStream.peek, here]
  rfl

/-- The nodes that a list of items makes, errors or not, and what holds of them after each item
and behind each error. -/
theorem recovering_keeps (stop : Token → Bool) (item : Parser (List Nat))
    {R : List Nat → ParserState → Prop} (sound : Sound c s) (start : R [] s)
    (each : ∀ items s₁, Gathered c s s₁ items → R items s₁ → s₁.token.kind ≠ .eof →
      stop s₁.token = false → Reads s₁ item s₁ fun more s' =>
        (Gathered c s₁ s' more ∧ s₁.place < s'.place) ∧ R (items ++ more) s')
    (resumed : ∀ items s₁, s₁.errors ≠ [] → R items s₁) :
    Reads s (Parser.recovering stop item) s fun items s' =>
      (Gathered c s s' items ∧ R items s') ∧ (s'.token.kind = .eof ∨ stop s'.token) := by
  refine .loop (I := fun items s' => Gathered c s s' items ∧ R items s')
    (fun _ _ h => h.1.onward.tokens) ⟨.nothing sound.toValid sound (.refl s), start⟩ ?_
  rintro items s₁ ⟨gathered, holds⟩
  refine .get <| .ite (fun stops => ?_) fun goes => ?_
  · rw [at_end, Bool.or_eq_true, decide_eq_true_eq] at stops
    exact ⟨⟨gathered, holds⟩, stops⟩
  · rw [at_end, Bool.or_eq_true, decide_eq_true_eq, not_or, Bool.not_eq_true] at goes
    refine .tryCatch s₁ (R := fun r s' => ∃ more, r = .yield (items ++ more) ∧
      (Gathered c s₁ s' more ∧ s₁.place < s'.place) ∧ R (items ++ more) s') ?_ ?_ ?_
    · refine .bind (each items s₁ gathered holds goes.1 goes.2) ?_
      rintro more s₂ holds
      exact ⟨more, rfl, holds⟩
    · rintro _ s₂ ⟨more, rfl, ⟨gathered', lt⟩, holds⟩
      exact ⟨⟨gathered.then gathered', holds⟩, lt⟩
    · intro e s₂ fails
      refine ((recover_reads gathered.sound fails).from_ gathered.onward).bind ?_
      rintro _ s₃ ⟨sound, onward, lt, failed⟩
      have kept := gathered.then (.nothing gathered.sound.toValid sound onward)
      rw [List.append_nil] at kept
      exact ⟨⟨kept, resumed items s₃ failed⟩, lt⟩

theorem recovering_reads (stop : Token → Bool) (item : Parser (List Nat)) (sound : Sound c s)
    (each : ∀ s₁, Sound c s₁ → Onward s s₁ → s₁.token.kind ≠ .eof → stop s₁.token = false →
      Reads s₁ item s₁ fun more s' => Gathered c s₁ s' more ∧ s₁.place < s'.place) :
    Reads s (Parser.recovering stop item) s fun items s' =>
      Gathered c s s' items ∧ (s'.token.kind = .eof ∨ stop s'.token) := by
  have keeps := recovering_keeps stop item (R := fun _ _ => True) sound trivial
    (fun _ s₁ gathered _ more goes => (each s₁ gathered.sound gathered.onward more goes).mono
      fun _ _ holds => ⟨holds, trivial⟩) fun _ _ _ => trivial
  exact keeps.mono fun _ _ holds => ⟨holds.1.1, holds.2⟩

end PhpAnalyser
