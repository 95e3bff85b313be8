import PhpAnalyser.Code.Symbol
import PhpAnalyser.Proofs.Text.Case
import PhpAnalyser.Text.Character
/-!
Names that differ in the case of ASCII letters alone have one key.
-/
namespace PhpAnalyser

/-- Whatever holds of a capital ASCII letter and its small letter, and of any character and itself,
holds of a character and its small form. -/
theorem to_lower_cases {p : Char → Char → Prop}
    (capital : ∀ k < 26, p (Char.ofNat (65 + k)) (Char.ofNat (65 + k)).toLower)
    (other : ∀ c, p c c) (c : Char) : p c c.toLower := by
  by_cases upper : 65 ≤ c.toNat ∧ c.toNat ≤ 90
  · have letter := capital (c.toNat - 65) (by omega)
    rwa [Nat.add_sub_cancel' upper.1, Char.ofNat_toNat] at letter
  · have same : c.toLower = c := by
      unfold Char.toLower
      rw [dif_neg]
      exact fun inside => upper ⟨inside.1, inside.2⟩
    rw [same]
    exact other c

theorem lower_char_to_lower (c : Char) : lowerChar c.toLower = lowerChar c :=
  to_lower_cases (p := fun c d => lowerChar d = lowerChar c) (by decide) (fun _ => rfl) c

/-- Of some ranges, those that begin with an ASCII character decide about these characters. -/
theorem in_ranges_ascii (ranges : List (Nat × Nat)) {c : Char} (ascii : c.toNat < 128) :
    inRanges ranges c = inRanges (ranges.filter fun range => range.1 < 128) c := by
  rw [inRanges, inRanges, List.any_filter]
  congr 1
  funext range
  by_cases low : range.1 < 128
  · simp [low]
  · have apart : ¬range.1 ≤ c.toNat := by omega
    simp [low, apart]

/-- Ranges that hold both or none of a capital and its small letter. -/
theorem in_ranges_to_lower {ranges : List (Nat × Nat)} (few : List (Nat × Nat))
    (first : ranges.filter (fun range => range.1 < 128) = few)
    (both : ∀ k < 26, inRanges few (Char.ofNat (65 + k)).toLower = inRanges few (Char.ofNat (65 + k)))
    (c : Char) : inRanges ranges c.toLower = inRanges ranges c := by
  have ascii : ∀ k < 26, (Char.ofNat (65 + k)).toNat < 128 ∧
      (Char.ofNat (65 + k)).toLower.toNat < 128 := by decide
  refine to_lower_cases (p := fun c d => inRanges ranges d = inRanges ranges c) (fun k low => ?_)
    (fun _ => rfl) c
  rw [in_ranges_ascii ranges (ascii k low).1, in_ranges_ascii ranges (ascii k low).2, first]
  exact both k low

theorem cased_to_lower (c : Char) : isCased c.toLower = isCased c :=
  in_ranges_to_lower [(0x41, 0x5A), (0x61, 0x7A)] (by rfl) (by decide) c

set_option maxRecDepth 2000 in
theorem ignorable_to_lower (c : Char) : isCaseIgnorable c.toLower = isCaseIgnorable c :=
  in_ranges_to_lower [(0x27, 0x27), (0x2E, 0x2E), (0x3A, 0x3A), (0x5E, 0x5E), (0x60, 0x60)]
    (by rfl) (by decide) c

theorem sigma_to_lower (c : Char) : c.toLower = 'Σ' ↔ c = 'Σ' :=
  to_lower_cases (p := fun c d => d = 'Σ' ↔ c = 'Σ') (by decide) (fun _ => .rfl) c

theorem backslash_to_lower (c : Char) : isBackslash c.toLower = isBackslash c :=
  to_lower_cases (p := fun c d => isBackslash d = isBackslash c) (by decide)
    (fun _ => rfl) c

theorem leads_to_lower (text : List Char) :
    leadsToCased (text.map Char.toLower) = leadsToCased text := by
  have ignorable : isCaseIgnorable ∘ Char.toLower = isCaseIgnorable := funext ignorable_to_lower
  have cased : (fun c => isCased c.toLower) = isCased := funext cased_to_lower
  rw [leadsToCased, List.dropWhile_map, ignorable, List.head?_map, Option.any_map, cased]
  rfl

theorem lower_from_to_lower (before text : List Char) :
    lowerFrom (before.map Char.toLower) (text.map Char.toLower) = lowerFrom before text := by
  induction text generalizing before with
  | nil => rfl
  | cons c text ih =>
    have behind := ih (c :: before)
    rw [List.map_cons] at behind
    rw [List.map_cons, lowerFrom, lowerFrom, behind, leads_to_lower, leads_to_lower,
      lower_char_to_lower]
    simp only [sigma_to_lower]

theorem ascii_lower_append (a b : String) : asciiLower (a ++ b) = asciiLower a ++ asciiLower b := by
  simp [asciiLower, String.toList_append, List.map_append, String.ofList_append]

/-- The lowercase of a text does not depend on the case of its ASCII letters. -/
theorem lowercase_ascii_lower (s : String) : lowercase (asciiLower s) = lowercase s := by
  rw [lowercase, asciiLower, String.toList_ofList]
  exact congrArg String.ofList (lower_from_to_lower [] s.toList)

theorem to_lower_of_small (c : Char) : isSmall c = true → c.toLower = c :=
  to_lower_cases (p := fun c d => isSmall c = true → d = c) (by decide) (fun _ _ => rfl) c

/-- A text in lowercase has no capital ASCII letters. -/
theorem ascii_lower_lowercase (s : String) : asciiLower (lowercase s) = lowercase s := by
  rw [asciiLower, lowercase, String.toList_ofList]
  have small : ∀ c ∈ lowerFrom [] s.toList, c.toLower = c := fun c member =>
    to_lower_of_small c (lower_from_small _ _ c member)
  rw [List.map_congr_left small, List.map_id']

theorem same_case_lowercase {name s : String} :
    sameAsciiCase name (lowercase s) = true ↔ asciiLower name = lowercase s := by
  rw [sameAsciiCase, beq_iff_eq, ascii_lower_lowercase]

theorem lowercase_of_same_case {name s : String} (same : sameAsciiCase name (lowercase s) = true) :
    lowercase name = lowercase s := by
  rw [← lowercase_ascii_lower, same_case_lowercase.mp same, lowercase_lowercase]

theorem symbol_key_ascii_lower (name : String) : symbolKey (asciiLower name) = symbolKey name := by
  have dropped : dropLeadingBackslashes (asciiLower name) =
      asciiLower (dropLeadingBackslashes name) := by
    have same : isBackslash ∘ Char.toLower = isBackslash := funext backslash_to_lower
    rw [dropLeadingBackslashes, asciiLower, asciiLower, dropLeadingBackslashes,
      String.toList_ofList, String.toList_ofList, List.dropWhile_map, same]
  rw [symbolKey, dropped, lowercase_ascii_lower]
  rfl

theorem symbol_key_of_same_case {name other : String} (same : sameAsciiCase name other = true) :
    symbolKey name = symbolKey other := by
  have lower : asciiLower name = asciiLower other := eq_of_beq same
  rw [← symbol_key_ascii_lower, lower, symbol_key_ascii_lower]

end PhpAnalyser
