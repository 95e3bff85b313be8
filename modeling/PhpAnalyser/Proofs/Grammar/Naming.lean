import PhpAnalyser.Proofs.Grammar.Control
/-!
The readers of names and types take tokens and make no nodes.
-/
namespace PhpAnalyser

variable {c : Setting} {origin s : ParserState} {ids : List Nat}

/-- A loop over tokens takes what its last step takes. -/
theorem Takes.loop (least : Nat) {step : β → Parser (ForInStep β)}
    (each : ∀ b origin s ids, Underway c origin s ids → Reads origin (step b) s
      (Steps (fun _ s' => Underway c origin s' ids)
        (fun _ s' => Underway c origin s' ids ∧ s.place + least ≤ s'.place) s)) (b : β) :
    Takes least c (Parser.repeatFrom b step) := by
  intro origin s ids underway
  refine .loop (I := fun _ s' => Underway c origin s' ids ∧ s.place ≤ s'.place)
    (fun _ _ h => h.1.onward.tokens) ⟨underway, Nat.le_refl _⟩ ?_
  rintro b s₁ ⟨underway, le⟩
  refine (each b origin s₁ ids underway).mono fun r s₂ steps => ?_
  cases r with
  | done b => exact ⟨steps.1, Nat.le_trans (Nat.add_le_add_right le least) steps.2⟩
  | yield b => exact ⟨⟨steps.1, Nat.le_trans le (Nat.le_of_lt steps.2)⟩, steps.2⟩

theorem ordinary_of_word {kind : TokenKind} (word : Parser.isWord kind) : kind.isOrdinary := by
  cases kind <;> first | rfl | cases word

theorem member_name_reads (underway : Underway c origin s ids) :
    Reads origin Parser.memberName s fun t s' =>
      t = s.token ∧ s.token.kind.isOrdinary ∧ Took c origin ids s s' := by
  refine .current <| .ite (fun word => ?_) fun _ => ?_
  · have ordinary := ordinary_of_word word
    exact (advance_reads underway ordinary).mono fun _ _ h => ⟨h.1, ordinary, h.2⟩
  · exact unexpected_reads underway.sound.toValid underway.onward

/-- The characters of a name are those of its words and the backslashes between them. -/
theorem name_tail_reads {written : String} (underway : Underway c origin s ids)
    (solid : Solid written) :
    Reads origin (Parser.nameTail written) s fun written' s' =>
      (Underway c origin s' ids ∧ s.place ≤ s'.place) ∧ Solid written' ∧
        written.toList <+: written'.toList := by
  refine .loop
    (I := fun written' s' => (Underway c origin s' ids ∧ s.place ≤ s'.place) ∧ Solid written' ∧
      written.toList <+: written'.toList)
    (fun _ _ holds => holds.1.1.onward.tokens) ⟨⟨underway, Nat.le_refl _⟩, solid, List.prefix_rfl⟩ ?_
  rintro written' s₁ ⟨⟨underway, le⟩, solid, longer⟩
  have more (part : String) : written.toList <+: (written' ++ part).toList := by
    rw [String.toList_append]
    exact longer.trans (List.prefix_append _ _)
  refine .current <| .ite (fun _ => .ite (fun word => ?_) fun _ => ?_) fun _ => .ahead ?_
  · have segment := underway.sound.lexed.solid _ s₁.token_mem word
    refine .bind (skip_reads underway (ordinary_of_word word)) fun _ s' took => ?_
    have lt := took.place_lt
    exact ⟨⟨⟨took.underway, by omega⟩, solid.append segment, more _⟩, lt⟩
  · exact unexpected_reads underway.sound.toValid underway.onward
  · refine .ite (fun goes => ?_) fun _ => ⟨⟨underway, le⟩, solid, longer⟩
    rw [Bool.and_eq_true, decide_eq_true_eq] at goes
    refine .bind (skip_reads underway (by rw [goes.1]; rfl)) fun _ s' took => ?_
    have lt := took.place_lt
    exact ⟨⟨⟨took.underway, by omega⟩, solid.append .backslash, more _⟩, lt⟩

theorem name_head_reads (underway : Underway c origin s ids) :
    Reads origin Parser.nameHead s fun head s' =>
      (Underway c origin s' ids ∧ s.place + 1 ≤ s'.place) ∧ Solid head ∧
        (s.token.kind = .identifier → head = s.token.text) := by
  have takes (word : String) (ordinary : s.token.kind.isOrdinary) (solid : Solid word)
      (is : s.token.kind = .identifier → word = s.token.text) :
      Reads origin (do Parser.skip; return word) s fun head s' =>
        (Underway c origin s' ids ∧ s.place + 1 ≤ s'.place) ∧ Solid head ∧
          (s.token.kind = .identifier → head = s.token.text) :=
    .bind (skip_reads underway ordinary) fun _ s' took =>
      ⟨⟨took.underway, took.place_lt⟩, solid, is⟩
  refine .current <| .ahead <| .ite (fun relative => ?_) fun _ => ?_
  · rw [Bool.and_eq_true, decide_eq_true_eq] at relative
    exact takes _ (by rw [relative.1]; rfl) (by rw [Solid]; decide)
      fun word => by cases relative.1.symm.trans word
  refine .ite (fun absolute => ?_) fun _ => .ite (fun word => ?_) fun _ => ?_
  · exact takes _ (by rw [absolute]; rfl) .backslash
      fun word => by cases absolute.symm.trans word
  · refine takes _ (by rw [word]; rfl) ?_ fun _ => rfl
    exact underway.sound.lexed.solid _ s.token_mem (by rw [word]; rfl)
  · exact unexpected_reads underway.sound.toValid underway.onward

/-- The span of a name starts at its first token and ends with the last token taken. If the first
token is an identifier, there is no backslash in front. -/
theorem name_reads (underway : Underway c origin s ids) :
    Reads origin Parser.name s fun written s' =>
      written.2 = s.token.span.merge s'.last ∧ (Underway c origin s' ids ∧
        s.place + 1 ≤ s'.place) ∧ Solid written.1 ∧
        (s.token.kind = .identifier → Rootless written.1) := by
  have lexed := underway.sound.lexed
  refine .current <| .bind (name_head_reads underway) ?_
  rintro head s₁ ⟨⟨underway, lt⟩, solid, is⟩
  refine .bind (name_tail_reads underway solid) ?_
  rintro written s₂ ⟨⟨underway, le⟩, solid, longer⟩
  refine .get ⟨rfl, ⟨underway, Nat.le_trans lt le⟩, solid, fun word => ?_⟩
  rw [is word] at longer
  refine (Rootless.of_segment (lexed.simple _ s.token_mem word)).longer ?_ longer
  exact lexed.text _ s.token_mem (by rw [word]; nofun)

theorem name_takes : Takes 1 c Parser.name :=
  fun _ _ _ underway => (name_reads underway).mono fun _ _ holds => holds.2.1

theorem class_name_takes : Takes 1 c Parser.className :=
  fun _ _ _ underway => .bind (name_takes _ _ _ underway) fun _ _ holds => .get holds

theorem class_names_takes : Takes 1 c Parser.classNames :=
  fun _ _ ids underway => .commaSeparated (c := fun _ => c) (f := fun _ => ids) underway
    fun _ _ underway => class_name_takes _ _ _ underway

theorem type_atom_takes : Takes 1 c Parser.typeAtom := by
  intro origin s ids underway
  have takes (ordinary : s.token.kind.isOrdinary) :
      Reads origin (do Parser.skip; return asciiLower s.token.text) s fun _ s' =>
        Underway c origin s' ids ∧ s.place + 1 ≤ s'.place :=
    .bind (skip_reads underway ordinary) fun _ s' took => ⟨took.underway, took.place_lt⟩
  have names : Reads origin (do
      let written ← Parser.name
      if Parser.builtinTypes.contains (asciiLower written.1) then return asciiLower written.1
      return (← get).names.resolve written.1) s fun _ s' =>
        Underway c origin s' ids ∧ s.place + 1 ≤ s'.place :=
    .bind (name_takes _ _ _ underway) fun _ _ holds => .ite (fun _ => holds) fun _ => .get holds
  have fails : Reads origin (Parser.unexpected ["type"] : Parser String) s fun _ s' =>
      Underway c origin s' ids ∧ s.place + 1 ≤ s'.place :=
    unexpected_reads underway.sound.toValid underway.onward
  refine .current ?_
  split
  next kind => exact takes (by rw [kind]; rfl)
  next kind => exact takes (by rw [kind]; rfl)
  next kind => exact takes (by rw [kind]; rfl)
  next => exact names
  next => exact names
  next => exact names
  next => exact fails

theorem type_hint_takes : Takes 1 c Parser.typeHint := by
  intro origin s ids underway
  refine .bind (eat_reads underway rfl) ?_
  rintro optional s₁ ⟨underway, le, -⟩
  refine (Takes.loop 1 ?_ _ _ _ _ underway).mono fun _ s₂ holds => ⟨holds.1, ?_⟩
  · intro hint origin s ids underway
    apply type_atom_takes.then underway
    intro atom s₁ underway lt
    refine .bind (eat_operator_reads underway) ?_
    rintro eaten s₂ ⟨underway, le, -⟩
    have lt' : s.place + 1 ≤ s₂.place := Nat.le_trans lt le
    exact .ite (fun _ => ⟨underway, lt'⟩) fun _ => ⟨underway, lt'⟩
  · exact Nat.le_trans (Nat.add_le_add_right le 1) holds.2

theorem return_type_takes : Takes 0 c Parser.returnType := by
  intro origin s ids underway
  refine .bind (eat_reads underway rfl) ?_
  rintro eaten s₁ ⟨underway, le, -⟩
  refine .ite (fun _ => ?_) fun _ => ⟨underway, le⟩
  refine .discard ((type_hint_takes _ _ _ underway).mono fun _ s₂ holds => ⟨holds.1, ?_⟩)
  exact Nat.le_trans le (Nat.le_of_lt holds.2)

end PhpAnalyser
