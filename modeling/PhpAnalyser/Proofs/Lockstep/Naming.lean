import PhpAnalyser.Proofs.Lockstep.Control
/-!
Names and types, read side by side. What a name resolves to has no effect on what is read next.
-/
namespace PhpAnalyser

variable {γ δ : Type} {E : Excerpt}

/-- The token ahead matters only behind a token that is no semicolon. -/
theorem Twin.guarded {p q : TokenKind → Bool} {s t : ParserState} (twin : Twin E s t)
    (other : p .semicolon = false) :
    (p s.token.kind && q (s.stream.peek 1).kind) =
      (p t.token.kind && q (t.stream.peek 1).kind) := by
  rw [← twin.like.kind]
  cases holds : p s.token.kind with
  | false => rw [Bool.false_and, Bool.false_and]
  | true =>
    have other : s.token.kind ≠ .semicolon := fun no => by simp [no, other] at holds
    rw [(twin.ahead other).kind]

theorem name_tail_steady {written : String} : Steady E (Parser.nameTail written) Same := by
  intro s t twin
  refine .loop (R := Same) twin rfl ?_
  rintro written _ s t twin ⟨⟩
  refine .current <| .ite .rfl (fun _ => ?_) fun _ => .ahead ?_
  · rw [← twin.like.kind, ← twin.like.text]
    refine .ite .rfl (fun isWord => ?_) fun _ => .unexpected twin
    exact .skip twin (fun no => by rw [no] at isWord; cases isWord) fun twin => .pure ⟨twin, rfl⟩
  · refine .ite (by rw [twin.guarded (p := fun kind => kind = .backslash) rfl])
      (fun isSegment => ?_) fun _ => .pure ⟨twin, rfl⟩
    rw [Bool.and_eq_true, decide_eq_true_eq] at isSegment
    exact .skip twin (by rw [isSegment.1]; nofun) fun twin => .pure ⟨twin, rfl⟩

theorem name_head_steady : Steady E Parser.nameHead Same := by
  intro s t twin
  refine .current <| .ahead <| .ite ?_ (fun isRelative => ?_) fun _ => ?_
  · rw [twin.guarded (p := fun kind => kind = .keyword .namespace_)
      (q := fun kind => kind = .backslash) rfl]
  · rw [Bool.and_eq_true, decide_eq_true_eq] at isRelative
    exact .skip twin (by rw [isRelative.1]; nofun) fun twin => .pure ⟨twin, rfl⟩
  rw [← twin.like.kind, ← twin.like.text]
  refine .ite .rfl (fun kind => ?_) fun _ => .ite .rfl (fun kind => ?_) fun _ => .unexpected twin
  · exact .skip twin (by rw [kind]; nofun) fun twin => .pure ⟨twin, rfl⟩
  · exact .skip twin (by rw [kind]; nofun) fun twin => .pure ⟨twin, rfl⟩

/-- A name is written alike wherever it stands. -/
theorem name_steady : Steady E Parser.name fun a _ b _ => a.1 = b.1 := by
  intro s t twin
  refine .current <| name_head_steady.same twin fun head s t twin => ?_
  refine name_tail_steady.same twin fun written s t twin => ?_
  exact (span_from_quiet.meets span_from_quiet twin).bind fun _ s _ t twin _ => .pure ⟨twin, rfl⟩

theorem Meets.name {f : String × Span → Parser γ} {f' : String × Span → Parser δ}
    {P : γ → ParserState → Outcome δ → Prop} {s t : ParserState} (twin : Twin E s t)
    (next : ∀ written span span' s t, Twin E s t →
      Meets E (f (written, span)) (f' (written, span')) s t P) :
    Meets E (Parser.name >>= f) (Parser.name >>= f') s t P := by
  refine (name_steady s t twin).bind ?_
  rintro ⟨written, span⟩ s ⟨_, span'⟩ t twin ⟨⟩
  exact next written span span' s t twin

theorem class_name_steady : Steady E Parser.className Any :=
  fun _ _ twin => .name twin fun _ _ _ _ _ twin => .get <| .pure ⟨twin, trivial⟩

theorem class_names_steady : Steady E Parser.classNames Any :=
  comma_separated_steady class_name_steady

theorem member_name_steady : Steady E Parser.memberName Written := by
  intro s t twin
  refine .current ?_
  rw [← twin.like.kind]
  refine .ite .rfl (fun isWord => ?_) fun _ => .unexpected twin
  exact advance_meets twin fun no => by rw [no] at isWord; cases isWord

theorem type_atom_steady : Steady E Parser.typeAtom Any := by
  intro s t twin
  have word (other : s.token.kind ≠ .semicolon) : Meets E (do
      Parser.skip
      return asciiLower s.token.text) (do
      Parser.skip
      return asciiLower t.token.text) s t (Steadily E Any) :=
    .skip twin other fun twin => .pure ⟨twin, trivial⟩
  have resolved (written : String) (span span' : Span) (s t : ParserState) (twin : Twin E s t) :
      Meets E (if Parser.builtinTypes.contains (asciiLower written) then
          return asciiLower written
        else return (← get).names.resolve written)
        (if Parser.builtinTypes.contains (asciiLower written) then
          return asciiLower written
        else return (← get).names.resolve written) s t (Steadily E Any) :=
    .ite .rfl (fun _ => .pure ⟨twin, trivial⟩) fun _ => .get <| .pure ⟨twin, trivial⟩
  refine .current ?_
  rw [← twin.like.kind]
  split
  next kind => exact word (by rw [kind]; nofun)
  next kind => exact word (by rw [kind]; nofun)
  next kind => exact word (by rw [kind]; nofun)
  next => exact .name twin resolved
  next => exact .name twin resolved
  next => exact .name twin resolved
  next => exact .unexpected twin

theorem type_hint_steady : Steady E Parser.typeHint Any := by
  intro s t twin
  refine (eat_steady (by nofun)).same twin fun optional s t twin => ?_
  refine .loop (R := Any) twin trivial fun hint hint' s t twin _ => ?_
  refine type_atom_steady.then twin fun a s b t twin => ?_
  refine eat_operator_steady.same twin fun more s t twin => ?_
  exact .ite .rfl (fun _ => .pure ⟨twin, trivial⟩) fun _ => .pure ⟨twin, trivial⟩

theorem return_type_steady : Steady E Parser.returnType Any := by
  intro s t twin
  refine (eat_steady (by nofun)).same twin fun typed s t twin => ?_
  exact .ite .rfl (fun _ => type_hint_steady.discard s t twin) fun _ => .pure ⟨twin, trivial⟩

end PhpAnalyser
