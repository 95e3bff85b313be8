import PhpAnalyser.Proofs.Naming.Qualified
import PhpAnalyser.Proofs.Text.AsciiCase
/-!
Resolving a name keeps the case in which its ASCII letters are written, and no step of it depends
on that case. So names that differ in this case alone lead to one type.
-/
namespace PhpAnalyser

theorem ascii_lower_of_list (chars : List Char) :
    asciiLower (String.ofList chars) = String.ofList (chars.map Char.toLower) := by
  rw [asciiLower, String.toList_ofList]

theorem ascii_lower_join (a b : String) :
    asciiLower (joinName a b) = joinName (asciiLower a) (asciiLower b) := by
  rw [joinName, joinName, ascii_lower_append, ascii_lower_append]
  rfl

/-- A small letter is no backslash, so a name has its segments in whatever case it is written. -/
theorem split_to_lower (chars : List Char) :
    splitName (chars.map Char.toLower) =
      ((splitName chars).1.map Char.toLower, (splitName chars).2.map (List.map Char.toLower)) := by
  induction chars with
  | nil => rfl
  | cons c chars ih =>
    by_cases here : c = '\\'
    · subst here
      rfl
    · have lower : c.toLower ≠ '\\' := fun same => here (backslash_of_to_lower same)
      simp [splitName, ih]

theorem ascii_lower_empty {name : String} : asciiLower name = "" ↔ name = "" := by
  simp [asciiLower, ← String.toList_eq_nil_iff]

section

variable {chars others : List Char}

theorem root_same_case {absolute : List Char} (root : chars = '\\' :: absolute)
    (same : chars.map Char.toLower = others.map Char.toLower) :
    ∃ absolute', others = '\\' :: absolute' ∧
      absolute.map Char.toLower = absolute'.map Char.toLower := by
  subst root
  cases others with
  | nil => cases same
  | cons c others =>
    obtain ⟨first, behind⟩ := List.cons.inj same
    exact ⟨others, by rw [backslash_of_to_lower first.symm], behind⟩

theorem split_same_case (same : chars.map Char.toLower = others.map Char.toLower) :
    (splitName chars).1.map Char.toLower = (splitName others).1.map Char.toLower ∧
      (splitName chars).2.map (List.map Char.toLower) =
        (splitName others).2.map (List.map Char.toLower) := by
  have split := split_to_lower chars
  rw [same, split_to_lower others] at split
  exact ⟨(congrArg Prod.fst split).symm, (congrArg Prod.snd split).symm⟩

end

theorem to_lower_chars {name other : String} (same : sameAsciiCase name other = true) :
    name.toList.map Char.toLower = other.toList.map Char.toLower := by
  have lower : asciiLower name = asciiLower other := eq_of_beq same
  simpa [asciiLower] using congrArg String.toList lower

theorem relative_same_case {name other : String} (same : sameAsciiCase name other = true) :
    (relativeName? name).map asciiLower = (relativeName? other).map asciiLower := by
  have chars := to_lower_chars same
  have front : sameAsciiCase (String.ofList (name.toList.take 10)) "namespace\\" =
      sameAsciiCase (String.ofList (other.toList.take 10)) "namespace\\" := by
    have lower : asciiLower (String.ofList (name.toList.take 10)) =
        asciiLower (String.ofList (other.toList.take 10)) := by
      rw [ascii_lower_of_list, ascii_lower_of_list, List.map_take, List.map_take, chars]
    rw [sameAsciiCase, sameAsciiCase, lower]
  have behind : asciiLower (String.ofList (name.toList.drop 10)) =
      asciiLower (String.ofList (other.toList.drop 10)) := by
    rw [ascii_lower_of_list, ascii_lower_of_list, List.map_drop, List.map_drop, chars]
  simp only [relativeName?, front]
  split
  · rw [Option.map_some, Option.map_some, behind]
  · rfl

namespace NameContext

variable (names : NameContext) {name other : String}

theorem qualify_same_case (same : asciiLower name = asciiLower other) :
    asciiLower (names.qualify name) = asciiLower (names.qualify other) := by
  unfold qualify
  split
  · exact same
  · rw [ascii_lower_join, ascii_lower_join, same]

/-- The alias is looked for in lowercase, and the tail behind it is kept as it is written. -/
theorem resolve_imported_same_case (same : sameAsciiCase name other = true) :
    asciiLower (names.resolveImported name) = asciiLower (names.resolveImported other) := by
  obtain ⟨first, behind⟩ := split_same_case (to_lower_chars same)
  have key : asciiLower (String.ofList (splitName name.toList).1) =
      asciiLower (String.ofList (splitName other.toList).1) := by
    rw [ascii_lower_of_list, ascii_lower_of_list, first]
  simp only [resolveImported, key]
  cases names.imports.lookup (asciiLower (String.ofList (splitName other.toList).1)) with
  | none => exact names.qualify_same_case (eq_of_beq same)
  | some imported =>
    cases tail : (splitName name.toList).2 <;> cases tail' : (splitName other.toList).2 <;>
      simp only [tail, tail', Option.map_none, Option.map_some, reduceCtorEq,
        Option.some.injEq] at behind
    case none.none => rfl
    case some.some => rw [ascii_lower_join, ascii_lower_join, ascii_lower_of_list,
      ascii_lower_of_list, behind]

theorem resolve_absolute {absolute : List Char} (root : name.toList = '\\' :: absolute) :
    names.resolve name = String.ofList absolute := by
  unfold resolve
  split
  next below root' => rw [root] at root'; cases root'; rfl
  next rootless => exact absurd root (rootless absolute)

theorem resolve_rootless (rootless : ∀ absolute, name.toList ≠ '\\' :: absolute) :
    names.resolve name =
      ((relativeName? name).filter (· ≠ "")).elim (names.resolveImported name) names.qualify := by
  unfold resolve
  split
  next absolute root => exact absurd root (rootless absolute)
  next =>
    cases relativeName? name with
    | none => rfl
    | some relative => by_cases empty : relative = "" <;> simp [Option.filter, empty]

/-- Through absolute names, names relative to the namespace, imports and the namespace itself. -/
theorem resolve_same_case (same : sameAsciiCase name other = true) :
    asciiLower (names.resolve name) = asciiLower (names.resolve other) := by
  have chars := to_lower_chars same
  by_cases root : ∃ absolute, name.toList = '\\' :: absolute
  · obtain ⟨absolute, root⟩ := root
    obtain ⟨absolute', root', below⟩ := root_same_case root chars
    rw [names.resolve_absolute root, names.resolve_absolute root', ascii_lower_of_list,
      ascii_lower_of_list, below]
  have rootless : ∀ absolute, name.toList ≠ '\\' :: absolute := not_exists.mp root
  have rootless' : ∀ absolute, other.toList ≠ '\\' :: absolute := fun absolute root =>
    have ⟨absolute', root', _⟩ := root_same_case root chars.symm
    rootless absolute' root'
  rw [names.resolve_rootless rootless, names.resolve_rootless rootless']
  have relative := relative_same_case same
  have imported := names.resolve_imported_same_case same
  cases known : relativeName? name <;> cases known' : relativeName? other <;>
    simp only [known, known', Option.map_none, Option.map_some, reduceCtorEq,
      Option.some.injEq] at relative
  case none.none => exact imported
  case some.some below below' =>
    have both : below = "" ↔ below' = "" := by
      have lowered := iff_of_eq (congrArg (· = "") relative)
      exact ascii_lower_empty.symm.trans (lowered.trans ascii_lower_empty)
    by_cases empty : below = ""
    · simpa [Option.filter, empty, both.mp empty] using imported
    · simpa [Option.filter, empty, mt both.mpr empty] using names.qualify_same_case relative

end NameContext

/-- Written names that differ in the case of ASCII letters alone have one answer: one declared type,
or none. -/
theorem lookup_resolved_same_case (names : NameContext) (symbols : SymbolTable)
    {name other : String} (same : sameAsciiCase name other = true) :
    (symbols.lookupType (names.resolve name)).id? =
      (symbols.lookupType (names.resolve other)).id? := by
  have resolved : sameAsciiCase (names.resolve name) (names.resolve other) = true :=
    beq_iff_eq.mpr (names.resolve_same_case same)
  have key := symbol_key_of_same_case resolved
  simp only [SymbolTable.lookupType, SymbolTable.type?, key]
  cases symbols.types.lookup (symbolKey (names.resolve other)) <;> rfl

/-- An alias with a tail that ends in a capital sigma, the declared name in another case. -/
theorem lookup_resolved_alias_tail :
    let names := (NameContext.ofNamespace "App").addImport "Alias" "Lib"
    let symbols := SymbolTable.empty.addType "lib\\ΣoΣ" 7
    sameAsciiCase "ALIAS\\ΣOΣ" "alias\\ΣoΣ" = true ∧
      (symbols.lookupType (names.resolve "ALIAS\\ΣOΣ")).id? = some 7 :=
  have found : ((SymbolTable.empty.addType "lib\\ΣoΣ" 7).lookupType
      (((NameContext.ofNamespace "App").addImport "Alias" "Lib").resolve "alias\\ΣoΣ")).id? =
        some 7 := by decide +kernel
  ⟨by decide +kernel, (lookup_resolved_same_case _ _ (by decide +kernel)).trans found⟩

end PhpAnalyser
