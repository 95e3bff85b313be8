import PhpAnalyser.Grammar.Naming
/-!
Qualified names: segments joined by single backslashes. What a name is resolved to is put together
from the namespace, an import and the name as it is written, and each of them can be taken apart
again at its first backslash.
-/
namespace PhpAnalyser

structure IsSegment (text : String) : Prop where
  nonempty : text ≠ ""
  simple : '\\' ∉ text.toList

/-- At least one segment, joined by single backslashes, with none in front or behind. -/
def Qualified (name : String) : Prop :=
  ∃ segments : List String, segments ≠ [] ∧ (∀ segment ∈ segments, IsSegment segment) ∧
    name = "\\".intercalate segments

def WrittenName (name : String) : Prop :=
  Qualified name ∨ ∃ behind, Qualified behind ∧ name = "\\" ++ behind

theorem intercalate_backslash (first second : String) (rest : List String) :
    "\\".intercalate (first :: second :: rest) =
      joinName first ("\\".intercalate (second :: rest)) := by
  rw [String.intercalate_cons_cons, joinName]

theorem join_name_assoc (a b c : String) :
    joinName (joinName a b) c = joinName a (joinName b c) := by
  simp [joinName, String.append_assoc]

theorem toList_join_name (a b : String) :
    (joinName a b).toList = a.toList ++ '\\' :: b.toList := by
  simp [joinName]

namespace Qualified

theorem segment {name : String} (is : IsSegment name) : Qualified name :=
  ⟨[name], by simp, by simpa using is, by simp⟩

theorem cons {first rest : String} (is : IsSegment first) (qualified : Qualified rest) :
    Qualified (joinName first rest) := by
  obtain ⟨segments, nonempty, all, rfl⟩ := qualified
  cases segments with
  | nil => exact absurd rfl nonempty
  | cons second segments =>
    have each : ∀ segment ∈ first :: second :: segments, IsSegment segment := by
      intro segment member
      rcases List.mem_cons.mp member with rfl | later
      · exact is
      · exact all segment later
    exact ⟨first :: second :: segments, by simp, each, (intercalate_backslash ..).symm⟩

/-- A name is one segment, or a segment in front of a shorter name. -/
theorem induct {P : ∀ name, Qualified name → Prop}
    (one : ∀ name (is : IsSegment name), P name (.segment is))
    (more : ∀ first rest (is : IsSegment first) (qualified : Qualified rest), P rest qualified →
      P (joinName first rest) (.cons is qualified))
    {name : String} (qualified : Qualified name) : P name qualified := by
  obtain ⟨segments, nonempty, all, rfl⟩ := qualified
  induction segments with
  | nil => exact absurd rfl nonempty
  | cons first segments ih =>
    have is := all first List.mem_cons_self
    cases segments with
    | nil =>
      have same : "\\".intercalate [first] = first := by simp
      simpa only [same] using one first is
    | cons second segments =>
      have each : ∀ segment ∈ second :: segments, IsSegment segment :=
        fun segment later => all segment (List.mem_cons_of_mem first later)
      have same := intercalate_backslash first second segments
      simpa only [same] using more first _ is ⟨_, by simp, each, rfl⟩ (ih (by simp) each)

theorem join {a b : String} (first : Qualified a) (second : Qualified b) :
    Qualified (joinName a b) := by
  induction first using induct with
  | one name is => exact .cons is second
  | more first rest is _ ih =>
    rw [join_name_assoc]
    exact .cons is ih

theorem nonempty {name : String} (qualified : Qualified name) : name ≠ "" := by
  induction qualified using induct with
  | one name is => exact is.nonempty
  | more first rest is _ _ =>
    intro empty
    simpa [toList_join_name] using congrArg String.toList empty

/-- The first character of a name is no backslash. -/
theorem rootless {name : String} (qualified : Qualified name) :
    name.toList.head? ≠ some '\\' := by
  have start {text : String} (is : IsSegment text) (rest : List Char) :
      (text.toList ++ rest).head? ≠ some '\\' := by
    cases chars : text.toList with
    | nil => exact absurd (String.toList_eq_nil_iff.mp chars) is.nonempty
    | cons c more =>
      intro first
      have simple := is.simple
      simp_all
  induction qualified using induct with
  | one name is => simpa using start is []
  | more first rest is _ _ =>
    rw [toList_join_name]
    exact start is _

/-- Nor is the last one. -/
theorem open_ended {name : String} (qualified : Qualified name) :
    name.toList.getLast? ≠ some '\\' := by
  induction qualified using induct with
  | one name is => exact fun last => is.simple (List.mem_of_getLast? last)
  | more first rest _ qualified ih =>
    have some : rest.toList ≠ [] := by simpa using qualified.nonempty
    rw [toList_join_name, List.getLast?_append, List.getLast?_cons,
      List.getLast?_eq_some_getLast some, Option.getD_some, Option.some_or,
      ← List.getLast?_eq_some_getLast some]
    exact ih

end Qualified

theorem split_simple {chars : List Char} (simple : '\\' ∉ chars) :
    splitName chars = (chars, none) := by
  induction chars with
  | nil => rfl
  | cons c chars ih =>
    have here : c ≠ '\\' := fun same => simple (same ▸ List.mem_cons_self)
    have rest : '\\' ∉ chars := fun inside => simple (List.mem_cons_of_mem c inside)
    rw [splitName, ih rest]
    exact here

theorem split_joined {first : List Char} (simple : '\\' ∉ first) (behind : List Char) :
    splitName (first ++ '\\' :: behind) = (first, some behind) := by
  induction first with
  | nil => rfl
  | cons c first ih =>
    have here : c ≠ '\\' := fun same => simple (same ▸ List.mem_cons_self)
    have rest : '\\' ∉ first := fun inside => simple (List.mem_cons_of_mem c inside)
    rw [List.cons_append, splitName, ih rest]
    exact here

/-- What is behind the first backslash of a name is a name. -/
theorem Qualified.behind {name : String} (qualified : Qualified name) {first rest : List Char}
    (split : splitName name.toList = (first, some rest)) : Qualified (String.ofList rest) := by
  induction qualified using Qualified.induct with
  | one name is =>
    rw [split_simple is.simple] at split
    cases split
  | more first' rest' is qualified _ =>
    rw [toList_join_name, split_joined is.simple] at split
    cases split
    rwa [String.ofList_toList]

theorem backslash_of_to_lower {c : Char} (lower : c.toLower = '\\') : c = '\\' := by
  unfold Char.toLower at lower
  split at lower
  case isFalse => exact lower
  case isTrue capital =>
    have value := congrArg (fun c : Char => c.val) lower
    have : c.val + 32 = 92 := by simpa using value
    have : c.val = 92 - 32 := by rw [← this]; simp
    rw [this] at capital
    simp at capital

/-- The word `namespace` has no backslash in it, in whatever case it is written. -/
theorem relative_name_split {written relative : String}
    (known : relativeName? written = some relative) :
    ∃ first, splitName written.toList = (first, some relative.toList) := by
  simp only [relativeName?] at known
  split at known
  case isFalse => cases known
  case isTrue same =>
    cases known
    have lower : (written.toList.take 10).map Char.toLower = "namespace\\".toList := by
      have same : asciiLower (String.ofList (written.toList.take 10)) =
          asciiLower "namespace\\" := by
        simpa [sameAsciiCase] using same
      simpa [asciiLower] using congrArg String.toList same
    have length : (written.toList.take 10).length = 10 := by
      simpa using congrArg List.length lower
    have cut := List.take_append_drop 10 written.toList
    obtain ⟨first, last, parts⟩ : ∃ first last, written.toList.take 10 = first ++ [last] :=
      ⟨_, _, (List.dropLast_concat_getLast (List.ne_nil_of_length_pos (by omega))).symm⟩
    rw [parts, List.map_append] at lower
    have whole : first.map Char.toLower ++ [last].map Char.toLower = "namespace".toList ++ ['\\'] :=
      lower
    have pieces := List.append_inj' whole rfl
    have isLast : last = '\\' := backslash_of_to_lower (by simpa using pieces.2)
    have simple : '\\' ∉ first := by
      intro inside
      have lowered := List.mem_map_of_mem (f := Char.toLower) inside
      rw [pieces.1] at lowered
      exact absurd lowered (by decide)
    refine ⟨first, ?_⟩
    rw [parts, isLast, List.append_assoc] at cut
    rw [String.toList_ofList]
    calc
      _ = splitName (first ++ '\\' :: written.toList.drop 10) := congrArg splitName cut.symm
      _ = _ := split_joined simple _

theorem Qualified.relative {written relative : String} (qualified : Qualified written)
    (known : relativeName? written = some relative) : Qualified relative := by
  obtain ⟨first, split⟩ := relative_name_split known
  simpa using qualified.behind split

theorem WrittenName.dropped {written : String} (is : WrittenName written) :
    Qualified (dropLeadingBackslashes written) := by
  have kept {name : String} (qualified : Qualified name) :
      name.toList.dropWhile isBackslash = name.toList := by
    have rootless := qualified.rootless
    cases chars : name.toList with
    | nil => rfl
    | cons c rest =>
      rw [chars] at rootless
      have other : isBackslash c = false := by simpa [isBackslash] using rootless
      rw [List.dropWhile_cons_of_neg (by simp [other])]
  unfold dropLeadingBackslashes
  rcases is with qualified | ⟨behind, qualified, rfl⟩
  · rwa [kept qualified, String.ofList_toList]
  · have chars : ("\\" ++ behind).toList = '\\' :: behind.toList := by simp
    rwa [chars, List.dropWhile_cons_of_pos (by decide), kept qualified, String.ofList_toList]

/-- What is asked of the names in a tree: qualified names have it, it goes on to what stands below
a name, and if `rooted` holds, members of groups may be written with a backslash in front. -/
structure NameLaw (rooted : Prop) (fine : String → Prop) : Prop where
  qualified : ∀ name, Qualified name → fine name
  join : ∀ a b, fine a → Qualified b → fine (joinName a b)
  member : rooted → ∀ a b, Qualified a → Qualified b → fine (joinName a ("\\" ++ b))

structure NameContext.Fine (fine : String → Prop) (names : NameContext) : Prop where
  package : names.package = "" ∨ Qualified names.package
  imports : ∀ entry ∈ names.imports, fine entry.2

namespace NameContext.Fine

variable {rooted : Prop} {fine : String → Prop} {names : NameContext}

theorem global (fine : String → Prop) : (NameContext.ofNamespace "").Fine fine :=
  ⟨.inl rfl, by simp [ofNamespace]⟩

theorem namespace_ {package : String} (qualified : package = "" ∨ Qualified package) :
    (NameContext.ofNamespace package).Fine fine :=
  ⟨qualified, by simp [ofNamespace]⟩

theorem addImport (effect : names.Fine fine) {shortName name : String} (is : fine name) :
    (names.addImport shortName name).Fine fine where
  package := effect.package
  imports entry member := by
    rcases List.mem_cons.mp member with rfl | before
    · exact is
    · exact effect.imports entry before

theorem qualify (effect : names.Fine fine) {name : String} (qualified : Qualified name) :
    Qualified (names.qualify name) := by
  unfold NameContext.qualify
  split
  · exact qualified
  · exact (effect.package.resolve_left (by assumption)).join qualified

variable (law : NameLaw rooted fine)
include law

theorem resolve_imported (effect : names.Fine fine) {written : String}
    (qualified : Qualified written) : fine (names.resolveImported written) := by
  have imported {key found : String} (listed : names.imports.lookup key = some found) :
      fine found := by
    obtain ⟨l, r, same, -⟩ := List.lookup_eq_some_iff.mp listed
    exact effect.imports (key, found) (by rw [same]; simp)
  cases split : splitName written.toList with
  | mk first behind =>
  simp only [resolveImported, split]
  split
  case h_1 listed => exact imported listed
  case h_2 found rest listed => exact law.join _ _ (imported listed) (qualified.behind split)
  case h_3 => exact law.qualified _ (effect.qualify qualified)

/-- Whatever way a name is resolved, the result is fine. -/
theorem resolve (effect : names.Fine fine) {written : String} (is : WrittenName written) :
    fine (names.resolve written) := by
  rcases is with qualified | ⟨behind, qualified, rfl⟩
  case inr =>
    have chars : ("\\" ++ behind).toList = '\\' :: behind.toList := by simp
    rw [NameContext.resolve, chars]
    simpa using law.qualified _ qualified
  unfold NameContext.resolve
  split
  next absolute chars =>
    have rootless := qualified.rootless
    rw [chars] at rootless
    exact absurd rfl rootless
  next =>
    split
    next relative known =>
      split
      · exact effect.resolve_imported law qualified
      · exact law.qualified _ (effect.qualify (qualified.relative known))
    next => exact effect.resolve_imported law qualified

end NameContext.Fine

end PhpAnalyser
