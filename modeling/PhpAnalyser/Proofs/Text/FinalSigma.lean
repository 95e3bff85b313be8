import PhpAnalyser.Proofs.Text.AsciiCase
/-!
The lowercase of a text and of a start of it. What comes behind the start matters to its small letters
in one place: a capital sigma with which a word would end if nothing came.
-/
namespace PhpAnalyser

def lowerBetween (before : List Char) : List Char → List Char → List Char
  | [], _ => []
  | c :: text, behind =>
    let small :=
      if c = 'Σ' then [if leadsToCased before && !leadsToCased (text ++ behind) then 'ς' else 'σ']
      else lowerChar c
    small ++ lowerBetween (c :: before) text behind

/-- The last letter of a text is a capital sigma in a word, but for ignorable characters. -/
def endsInSigma (text : List Char) : Bool :=
  match text.reverse.dropWhile isCaseIgnorable with
  | 'Σ' :: before => leadsToCased before
  | _ => false

theorem lower_from_append (before text behind : List Char) : lowerFrom before (text ++ behind) =
    lowerBetween before text behind ++ lowerFrom (text.reverse ++ before) behind := by
  induction text generalizing before with
  | nil => rfl
  | cons c text ih =>
    rw [List.cons_append, lowerFrom, ih, lowerBetween, List.append_assoc, List.reverse_cons,
      List.append_assoc, List.singleton_append]

theorem lower_between_append (before first text behind : List Char) :
    lowerBetween before (first ++ text) behind = lowerBetween before first (text ++ behind) ++
      lowerBetween (first.reverse ++ before) text behind := by
  induction first generalizing before with
  | nil => rfl
  | cons c first ih =>
    rw [List.cons_append, lowerBetween, ih, lowerBetween, List.append_assoc, List.append_assoc,
      List.reverse_cons, List.append_assoc, List.singleton_append]

/-- How long the lowercase of a text is does not depend on what comes behind. -/
theorem length_lower_between (before text behind other : List Char) :
    (lowerBetween before text behind).length = (lowerBetween before text other).length := by
  induction text generalizing before with
  | nil => rfl
  | cons c text ih =>
    rw [lowerBetween, lowerBetween, List.length_append, List.length_append, ih]
    split <;> rfl

theorem leads_append (text behind : List Char) : leadsToCased (text ++ behind) =
    if text.all isCaseIgnorable then leadsToCased behind else leadsToCased text := by
  induction text with
  | nil => rfl
  | cons c text ih =>
    by_cases ignorable : isCaseIgnorable c = true
    · have step (rest : List Char) : leadsToCased (c :: rest) = leadsToCased rest := by
        rw [leadsToCased, List.dropWhile_cons_of_pos ignorable]
        rfl
      rw [List.cons_append, step, step, ih, List.all_cons, ignorable, Bool.true_and]
    · have step (rest : List Char) : leadsToCased (c :: rest) = isCased c := by
        rw [leadsToCased, List.dropWhile_cons_of_neg ignorable]
        rfl
      rw [List.cons_append, step, step, List.all_cons, Bool.eq_false_iff.mpr ignorable]
      rfl

set_option maxRecDepth 2000 in
theorem sigma_not_ignorable : isCaseIgnorable 'Σ' = false := by rfl

theorem ends_in_sigma_iff (text : List Char) : endsInSigma text = true ↔
    ∃ first ignorable, text = first ++ 'Σ' :: ignorable ∧ leadsToCased first.reverse = true ∧
      ignorable.all isCaseIgnorable = true := by
  constructor
  · intro ends
    rw [endsInSigma] at ends
    split at ends
    next before found =>
      refine ⟨before.reverse, (text.reverse.takeWhile isCaseIgnorable).reverse, ?_, ?_, ?_⟩
      · calc text
          _ = (text.reverse.takeWhile isCaseIgnorable ++
              text.reverse.dropWhile isCaseIgnorable).reverse := by
            rw [List.takeWhile_append_dropWhile, List.reverse_reverse]
          _ = before.reverse ++ 'Σ' :: (text.reverse.takeWhile isCaseIgnorable).reverse := by
            rw [found, List.reverse_append, List.reverse_cons, List.append_assoc,
              List.singleton_append]
      · rwa [List.reverse_reverse]
      · rw [List.all_reverse]
        exact List.all_takeWhile
    next => cases ends
  · rintro ⟨first, ignorable, rfl, leads, all⟩
    have dropped : (first ++ 'Σ' :: ignorable).reverse.dropWhile isCaseIgnorable =
        'Σ' :: first.reverse := by
      have passed : ∀ c ∈ ignorable.reverse, isCaseIgnorable c = true := fun c member =>
        List.all_eq_true.mp all c (List.mem_reverse.mp member)
      rw [List.reverse_append, List.reverse_cons, List.append_assoc, List.singleton_append,
        List.dropWhile_append_of_pos passed,
        List.dropWhile_cons_of_neg (by simp [sigma_not_ignorable])]
    rw [endsInSigma, dropped]
    exact leads

/-- What comes behind a text leads to a letter or not, and this matters to the lowercase of the text
just where its last letter is a capital sigma in a word. -/
theorem lower_between_eq_iff (text behind other : List Char) :
    lowerBetween [] text behind = lowerBetween [] text other ↔
      (endsInSigma text = true → leadsToCased behind = leadsToCased other) := by
  constructor
  · intro same ends
    obtain ⟨first, ignorable, rfl, leads, all⟩ := (ends_in_sigma_iff text).mp ends
    rw [lower_between_append, lower_between_append] at same
    -- The sigma has one place in both, for what is in front of it is equally long.
    have tails := (List.append_inj same (length_lower_between ..)).2
    rw [List.append_nil, lowerBetween, lowerBetween, if_pos rfl, if_pos rfl, leads, leads_append,
      leads_append, all, if_pos rfl, if_pos rfl] at tails
    have letters := (List.cons.inj tails).1
    revert letters
    cases leadsToCased behind <;> cases leadsToCased other <;> simp
  · intro alike
    suffices each : ∀ before rest, before.reverse ++ rest = text →
        lowerBetween before rest behind = lowerBetween before rest other from each [] text rfl
    intro before rest split
    induction rest generalizing before with
    | nil => rfl
    | cons c rest ih =>
      rw [lowerBetween, lowerBetween, ih (c :: before) (by simpa using split)]
      congr 1
      split
      next sigma =>
        rw [leads_append, leads_append]
        split
        next all =>
          by_cases leads : leadsToCased before = true
          · rw [alike <| (ends_in_sigma_iff text).mpr
              ⟨before.reverse, rest, by rw [← split, sigma], by rwa [List.reverse_reverse], all⟩]
          · simp [leads]
        · rfl
      · rfl

end PhpAnalyser
