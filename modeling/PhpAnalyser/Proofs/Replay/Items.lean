import PhpAnalyser.Proofs.Replay.Primitive
/-!
Items of a list that are read one behind the other without an error, and what a list of them is read
as.
-/
namespace PhpAnalyser

inductive Row (R : ParserState → List Nat → ParserState → Prop) :
    ParserState → List Nat → ParserState → Prop
  | nil (s : ParserState) : Row R s [] s
  | cons {s s₁ s' : ParserState} {ids more : List Nat} (first : R s ids s₁)
      (rest : Row R s₁ more s') : Row R s (ids ++ more) s'

theorem Row.snoc {R : ParserState → List Nat → ParserState → Prop} {s s₁ s' : ParserState}
    {ids more : List Nat} (row : Row R s ids s₁) (last : R s₁ more s') :
    Row R s (ids ++ more) s' := by
  induction row with
  | nil s => simpa using Row.cons last (.nil s')
  | cons first _ ih =>
    rw [List.append_assoc]
    exact .cons first (ih last)

theorem Row.append {R : ParserState → List Nat → ParserState → Prop} {s s₁ s' : ParserState}
    {ids more : List Nat} (row : Row R s ids s₁) (later : Row R s₁ more s') :
    Row R s (ids ++ more) s' := by
  induction row with
  | nil s => exact later
  | cons first _ ih =>
    rw [List.append_assoc]
    exact .cons first (ih later)

structure Item (stop : Token → Bool) (item : Parser (List Nat)) (s : ParserState) (ids : List Nat)
    (s' : ParserState) : Prop where
  more : s.token.kind ≠ .eof
  goes : stop s.token = false
  run : item s = some (.ok ids, s')
  moves : s.place < s'.place
  tokens : s'.tokens = s.tokens
  clean : s'.errors = []

variable {s s' : ParserState} {stop : Token → Bool} {item : Parser (List Nat)}

/-- Without an error the items of a list are read one behind the other. -/
theorem Succeeds.recovering_clean {I : List Nat → ParserState → Prop} (start : s.errors = [] → I [] s)
    (each : ∀ ids s more s', s.token.kind ≠ .eof → stop s.token = false →
      item s = some (.ok more, s') → s'.errors = [] →
        s.errors = [] ∧ (I ids s → I (ids ++ more) s')) :
    Succeeds (Parser.recovering stop item) s fun ids s' => s'.errors = [] →
      I ids s' ∧ (s'.token.kind = .eof ∨ stop s'.token = true) := by
  rw [recovering_eq]
  refine .repeatFrom (I := fun ids s₁ => s₁.errors = [] → I ids s₁) start fun ids s₁ before r s₂ run => ?_
  by_cases ends : s₁.token.kind = .eof ∨ stop s₁.token = true
  · rw [list_step_ends ends] at run
    cases run
    exact fun clean => ⟨before clean, ends⟩
  obtain ⟨more, goes⟩ := not_or.mp ends
  have goes : stop s₁.token = false := by simpa using goes
  rw [list_step_run more goes] at run
  rcases read : item s₁ with - | ⟨e | found, s₃⟩ <;> rw [read] at run
  · cases run
  · have noted := Replays.resume_noted run
    obtain ⟨u, _, _, same⟩ := ok_of_bind run
    cases same
    exact fun clean => absurd clean noted
  · cases run
    intro clean
    obtain ⟨clean₁, next⟩ := each ids s₁ found s₂ more goes read clean
    exact next (before clean₁)

/-- A list is read as a row of items. -/
theorem Succeeds.recovering_row (steady : Bool)
    (each : ∀ s ids s', item s = some (.ok ids, s') → s'.errors = [] →
      Passage steady s s' ∧ s.place < s'.place) :
    Succeeds (Parser.recovering stop item) s fun ids s' => s'.errors = [] →
      Row (Item stop item) s ids s' ∧ (s'.token.kind = .eof ∨ stop s'.token = true) := by
  refine .recovering_clean (I := fun ids s' => Row (Item stop item) s ids s') (fun _ => .nil s)
    fun ids s₁ found s₂ more goes run clean => ?_
  obtain ⟨passage, moves⟩ := each s₁ found s₂ run clean
  exact ⟨passage.clean, fun row => row.snoc ⟨more, goes, run, moves, passage.tokens, clean⟩⟩

theorem Row.place_le (row : Row (Item stop item) s ids s') : s.place ≤ s'.place := by
  induction row with
  | nil => exact Nat.le_refl _
  | cons first _ ih => exact Nat.le_trans (Nat.le_of_lt first.moves) ih

theorem Row.tokens (row : Row (Item stop item) s ids s') : s'.tokens = s.tokens := by
  induction row with
  | nil => rfl
  | cons first _ ih => exact ih.trans first.tokens

/-- A loop over a list takes a row of items, if it is allowed as many. -/
theorem Row.iterate (row : Row (Item stop item) s ids s')
    (ends : s'.token.kind = .eof ∨ stop s'.token = true) {fuel : Nat}
    (enough : s'.place < s.place + fuel) (items : List Nat) :
    Parser.iterate (listStep stop item) fuel items s = some (.ok (items ++ ids), s') := by
  induction row generalizing fuel items with
  | nil s =>
    obtain ⟨fuel, rfl⟩ := Nat.exists_eq_succ_of_ne_zero (n := fuel) (by omega)
    rw [Parser.iterate, run_bind, list_step_ends ends, List.append_nil]
    rfl
  | @cons s s₁ s' ids more first rest ih =>
    have low := rest.place_le
    have moves := first.moves
    obtain ⟨fuel, rfl⟩ := Nat.exists_eq_succ_of_ne_zero (n := fuel) (by omega)
    rw [Parser.iterate, run_bind, list_step_run first.more first.goes, first.run]
    change Parser.iterate _ fuel (items ++ ids) s₁ = _
    rw [ih ends (by omega), List.append_assoc]

/-- A row of items is what a list of them is read as. -/
theorem Row.recovering (row : Row (Item stop item) s ids s')
    (ends : s'.token.kind = .eof ∨ stop s'.token = true) :
    Parser.recovering stop item s = some (.ok ids, s') := by
  have inside : s'.place < s.tokens.size := row.tokens ▸ s'.place_lt
  have enough : s'.place < s.place + (s.stream.remaining + 1) := by
    change s'.place < s.place + (s.tokens.size - s.place + 1)
    omega
  have run := row.iterate ends enough []
  rw [recovering_eq]
  exact run

theorem Row.imp {R R' : ParserState → List Nat → ParserState → Prop}
    (row : Row R s ids s') (imp : ∀ s ids s', R s ids s' → R' s ids s') : Row R' s ids s' := by
  induction row with
  | nil s => exact .nil s
  | cons first _ ih => exact .cons (imp _ _ _ first) ih

/-- A row of items is read again in another text where each of them is. -/
theorem Row.replay {R : ParserState → List Nat → ParserState → Prop} {W : Overlap} {k : Bool}
    {m : Reach} {item' : Parser (List Nat)} (stop' : Token → Bool) (row : Row R s ids s')
    (roomy : W.Roomy) (items : ∀ s ids s₁, R s ids s₁ → Item stop item s ids s₁)
    (each : ∀ s ids s₁, R s ids s₁ → Replays W k k m item item' s)
    (goes : ∀ s ids s₁, R s ids s₁ → stop' s.token = false) (leaves : m.Leaves W s'.place)
    {t : ParserState} (beside : Beside W k s t) :
    ∃ t', Row (Item stop' item') t (W.shift ids) t' ∧ Beside W k s' t' := by
  induction row generalizing t with
  | nil s => exact ⟨t, .nil t, beside⟩
  | @cons s s₁ s' ids more first rest ih =>
    have one := items s ids s₁ first
    have low := (rest.imp items).place_le
    have moves := one.moves
    have inside : s.place < W.stop := Nat.lt_of_lt_of_le moves (Nat.le_trans low leaves.le)
    obtain ⟨-, -, follows⟩ := each s ids s₁ first ids s₁ one.run one.clean
    rcases follows t beside (Reach.enters_of_lt inside) (leaves.mono low) with
      ⟨t₁, run, beside₁⟩ | ⟨-, short⟩
    · obtain ⟨t', row', beside'⟩ := ih leaves beside₁
      refine ⟨t', ?_, beside'⟩
      rw [Overlap.shift, Renumber.shift_append]
      have token := beside.token inside
      refine .cons ⟨token ▸ one.more, token ▸ goes s ids s₁ first, run, ?_, ?_, beside₁.clean⟩ row'
      · rw [beside.place, beside₁.place]
        omega
      · rw [beside.whole, beside₁.whole]
    · exact absurd roomy short

end PhpAnalyser
