import PhpAnalyser.Text.Lowercase
/-!
A text in lowercase is its own lowercase.
-/
namespace PhpAnalyser

def isSmall (c : Char) : Bool := lowerChar c = [c] && c ≠ 'Σ'

theorem ascii_small : ∀ n < 128, isSmall (Char.ofNat n).toLower = true := by decide

/-- What the letters become that no range of capitals holds. -/
theorem special_small {c : Char} (special : c ∈ ['i', Char.ofNat 0x307, 'σ', 'ς']) :
    isSmall c = true := by
  simp only [List.mem_cons, List.not_mem_nil, or_false] at special
  rcases special with rfl | rfl | rfl | rfl <;> rfl

theorem sigma_held : (capitalRanges.find? (·.holds 'Σ')).isSome = true := by rfl

namespace CaseRange

def count (range : CaseRange) : Nat := (range.last - range.first) / range.step

def smallAt (range : CaseRange) (k : Nat) : Nat :=
  ((range.first + k * range.step : Nat) + range.shift).toNat

def holdsAt (range : CaseRange) (n : Nat) : Bool :=
  range.first.ble n && n.ble range.last && ((n - range.first) % range.step).beq 0

def clears (range other : CaseRange) : Bool :=
  (range.smallAt range.count).blt other.first || other.last.blt (range.smallAt 0) ||
    (List.range (range.count + 1)).all fun k => !other.holdsAt (range.smallAt k)

def isUsual (n : Nat) : Bool :=
  (n.blt 0xD800 || Nat.blt 0xDFFF n && n.blt 0x110000) &&
    if n.blt 128 then (Char.ofNat n).toLower == Char.ofNat n else !n.beq 0x130 && !n.beq 0x3A3

def isSound (range : CaseRange) : Bool :=
  (List.range (range.count + 1)).all (fun k => isUsual (range.smallAt k)) &&
    capitalRanges.all range.clears

theorem capitals_sound : ∀ range ∈ capitalRanges, range.isSound = true := by decide +kernel

theorem holds_at (range : CaseRange) (c : Char) : range.holds c = range.holdsAt c.toNat := by
  rw [Bool.eq_iff_iff]
  simp [holds, holdsAt]

theorem not_holds_at {range other : CaseRange} (clears : range.clears other = true) {k : Nat}
    (le : k ≤ range.count) : other.holdsAt (range.smallAt k) = false := by
  have scaled := Nat.mul_le_mul_right range.step le
  simp only [CaseRange.clears, Bool.or_eq_true, List.all_eq_true, List.mem_range, Nat.blt_eq,
    Bool.not_eq_true'] at clears
  rcases clears with (below | above) | each
  · have le : range.smallAt k ≤ range.smallAt range.count := by
      simp only [smallAt]
      omega
    have apart : other.first.ble (range.smallAt k) = false :=
      Bool.eq_false_iff.mpr fun no =>
        Nat.not_le_of_lt (Nat.lt_of_le_of_lt le below) (Nat.le_of_ble_eq_true no)
    simp [holdsAt, apart]
  · have le : range.smallAt 0 ≤ range.smallAt k := by
      simp only [smallAt]
      omega
    have apart : (range.smallAt k).ble other.last = false :=
      Bool.eq_false_iff.mpr fun no =>
        Nat.not_le_of_lt (Nat.lt_of_lt_of_le above le) (Nat.le_of_ble_eq_true no)
    simp [holdsAt, apart]
  · exact each k (Nat.lt_succ_of_le le)

theorem small_of_sound {range : CaseRange} (sound : range.isSound = true) {k : Nat}
    (le : k ≤ range.count) : isSmall (Char.ofNat (range.smallAt k)) = true := by
  simp only [isSound, Bool.and_eq_true, List.all_eq_true, List.mem_range] at sound
  obtain ⟨usual, clears⟩ := sound
  have usual := usual k (Nat.lt_succ_of_le le)
  have none : ∀ other ∈ capitalRanges, other.holdsAt (range.smallAt k) = false :=
    fun other member => not_holds_at (clears other member) le
  generalize range.smallAt k = n at usual none
  simp only [isUsual, Bool.and_eq_true, Bool.or_eq_true, Nat.blt_eq] at usual
  obtain ⟨valid, usual⟩ := usual
  have code : (Char.ofNat n).toNat = n := by
    have isChar : n.isValidChar := valid
    rw [Char.ofNat, dif_pos isChar]
    rfl
  have unheld : capitalRanges.find? (·.holds (Char.ofNat n)) = Option.none := by
    rw [List.find?_eq_none]
    intro other member
    rw [holds_at, code, none other member]
    exact Bool.false_ne_true
  by_cases ascii : n < 128
  · rw [if_pos ascii, beq_iff_eq] at usual
    have other : Char.ofNat n ≠ 'Σ' := fun same => by
      have code' := congrArg Char.toNat same
      rw [code] at code'
      rw [code'] at ascii
      revert ascii
      decide
    simp [isSmall, lowerChar, code, ascii, usual, other]
  · rw [if_neg ascii, Bool.and_eq_true, Bool.not_eq_true', Bool.not_eq_true'] at usual
    have other : Char.ofNat n ≠ 'Σ' := fun same => by
      have code' := congrArg Char.toNat same
      rw [code] at code'
      rw [code'] at usual
      revert usual
      decide
    have dotted : n ≠ 0x130 := fun same => by
      rw [same] at usual
      revert usual
      decide
    simp [isSmall, lowerChar, code, ascii, dotted, unheld, other]

theorem small_of_holds {range : CaseRange} (sound : range.isSound = true) {c : Char}
    (holds : range.holds c = true) : isSmall (Char.ofNat (c.toNat + range.shift).toNat) = true := by
  simp only [CaseRange.holds, Bool.and_eq_true, decide_eq_true_eq, beq_iff_eq] at holds
  obtain ⟨⟨low, high⟩, even⟩ := holds
  have exact := Nat.div_mul_cancel (Nat.dvd_of_mod_eq_zero even)
  have le : (c.toNat - range.first) / range.step ≤ range.count :=
    Nat.div_le_div_right (Nat.sub_le_sub_right high _)
  have place : range.smallAt ((c.toNat - range.first) / range.step) =
      (c.toNat + range.shift).toNat := by
    rw [smallAt, exact, Nat.add_sub_cancel' low]
  rw [← place]
  exact small_of_sound sound le

end CaseRange

theorem lower_char_small {c d : Char} (member : d ∈ lowerChar c) : isSmall d = true := by
  have char : Char.ofNat c.toNat = c := Char.ofNat_toNat c
  by_cases ascii : c.toNat < 128
  · rw [lowerChar, if_pos ascii, List.mem_singleton] at member
    rw [member, ← char]
    exact ascii_small _ ascii
  by_cases dotted : c.toNat = 0x130
  · have either : d = 'i' ∨ d = Char.ofNat 0x307 := by
      simpa [lowerChar, dotted] using member
    exact special_small (by rcases either with rfl | rfl <;> simp)
  rcases found : capitalRanges.find? (·.holds c) with - | range
  · have same : lowerChar c = [c] := by
      rw [lowerChar, if_neg ascii, if_neg dotted, found]
    rw [same, List.mem_singleton] at member
    subst member
    have other : d ≠ 'Σ' := by
      rintro rfl
      exact absurd sigma_held (by simp [found])
    simp [isSmall, same, other]
  · rw [lowerChar, if_neg ascii, if_neg dotted, found, List.mem_singleton] at member
    rw [member]
    have holds : range.holds c = true := by simpa using List.find?_some found
    have sound := CaseRange.capitals_sound range (List.mem_of_find?_eq_some found)
    exact CaseRange.small_of_holds sound holds

theorem lower_from_small (before text : List Char) : ∀ c ∈ lowerFrom before text, isSmall c := by
  induction text generalizing before with
  | nil => simp [lowerFrom]
  | cons c text ih =>
    rw [lowerFrom]
    intro d member
    rcases List.mem_append.mp member with here | behind
    · split at here
      · rw [List.mem_singleton] at here
        rw [here]
        exact special_small (by split <;> simp)
      · exact lower_char_small here
    · exact ih _ d behind

theorem lower_from_of_small {text : List Char} (small : ∀ c ∈ text, isSmall c = true)
    (before : List Char) : lowerFrom before text = text := by
  induction text generalizing before with
  | nil => rfl
  | cons c text ih =>
    have first := small c List.mem_cons_self
    simp only [isSmall, Bool.and_eq_true, decide_eq_true_eq] at first
    rw [lowerFrom, if_neg first.2, first.1, ih fun d member => small d (List.mem_cons_of_mem c member)]
    rfl

@[simp] theorem lowercase_lowercase (s : String) : lowercase (lowercase s) = lowercase s := by
  simp only [lowercase, String.toList_ofList]
  rw [lower_from_of_small (lower_from_small _ _)]

end PhpAnalyser
