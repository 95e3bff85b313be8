import PhpAnalyser.Proofs.Measure.Alike
import PhpAnalyser.Proofs.Text.FinalSigma
/-!
Patterns that stand for all packages with one start. Pattern and name are put in lowercase apart, and
a capital sigma in front of the star is that of the end of a word. It does not match one that a letter
follows in the name. All other starts match whatever follows, and nothing is left of the package.
-/
namespace PhpAnalyser

/-- Names with one start up to the case of ASCII letters have the same lowercase. -/
theorem lowercase_append_of_same_case {first start : String} (rest : String)
    (same : sameAsciiCase first start = true) :
    lowercase (first ++ rest) = lowercase (start ++ rest) := by
  rw [← lowercase_ascii_lower, ascii_lower_append, eq_of_beq same, ← ascii_lower_append,
    lowercase_ascii_lower]

theorem star_pattern (start : String) :
    (lowercase (start ++ "*")).toList = lowerBetween [] start.toList ['*'] ++ ['*'] := by
  have star (before : List Char) : lowerFrom before ['*'] = ['*'] := rfl
  rw [lowercase, String.toList_ofList, String.toList_append]
  exact (lower_from_append [] start.toList ['*']).trans (congrArg _ (star _))

/-- A pattern with a star matches the names with its start, unless this ends in a capital sigma that
is not the last letter of the word in the name. -/
theorem matches_start_iff (start rest : String) :
    matchesPackage (start ++ "*") (start ++ rest) = true ↔
      ¬(endsInSigma start.toList = true ∧ leadsToCased rest.toList = true) := by
  have name : (lowercase (start ++ rest)).toList = lowerBetween [] start.toList rest.toList ++
      lowerFrom (start.toList.reverse ++ []) rest.toList := by
    rw [lowercase, String.toList_ofList, String.toList_append, lower_from_append]
  have star : leadsToCased ['*'] = false := by decide +kernel
  rw [matchesPackage, star_pattern, List.reverse_append, List.reverse_singleton,
    List.singleton_append]
  simp only
  rw [List.reverse_reverse, List.isPrefixOf_iff_prefix, name]
  have same_length := length_lower_between [] start.toList ['*'] rest.toList
  have aligned : lowerBetween [] start.toList ['*'] <+: lowerBetween [] start.toList rest.toList ++
      lowerFrom (start.toList.reverse ++ []) rest.toList ↔
        lowerBetween [] start.toList ['*'] = lowerBetween [] start.toList rest.toList := by
    constructor
    · rintro ⟨behind, split⟩
      exact (List.append_inj split same_length).1
    · intro same
      rw [same]
      exact List.prefix_append ..
  rw [aligned, lower_between_eq_iff, star]
  cases leadsToCased rest.toList <;> simp

structure Filter.Excludes (f : Filter) (m : CodeModel) (p : Package) : Prop where
  package : f.acceptsPackage p = false
  types : ∀ d ∈ m.typesOf p, f.acceptsType m d = false
  methods : ∀ d ∈ m.typesOf p, ∀ c ∈ m.methodsOf d, f.acceptsCallable m c = false
  functions : ∀ c ∈ m.functionsOf p, f.acceptsCallable m c = false

variable {m : CodeModel} {f : Filter} {p : Package}

/-- With a package all that is in it is rejected. -/
theorem CodeModel.Measurable.excludes (measurable : m.Measurable) (there : p ∈ m.packages)
    (rejected : f.acceptsPackage p = false) : f.Excludes m p := by
  have known : m.package? p.id = some p := measurable.indexed.packed.numbered.get there
  have by_id : f.acceptsPackageId m p.id = false := by
    rw [Filter.acceptsPackageId, known, Option.all_some, rejected]
  have types (d : TypeDecl) (listed : d ∈ m.typesOf p) : d ∈ m.types ∧ f.acceptsType m d = false := by
    rw [measurable.indexed.types_of there] at listed
    obtain ⟨member, package⟩ := List.mem_filter.mp listed
    refine ⟨Array.mem_toList_iff.mp member, ?_⟩
    rw [Filter.acceptsType, of_decide_eq_true package, by_id, Bool.false_and]
  refine ⟨rejected, fun d listed => (types d listed).2, fun d listed c method => ?_,
    fun c listed => ?_⟩
  · rw [measurable.accepts_method (types d listed).1 method, (types d listed).2]
  · rw [measurable.indexed.functions_of there] at listed
    have kind := of_decide_eq_true (List.mem_filter.mp listed).2
    rw [Filter.acceptsCallable, Filter.packageOf, kind, Option.all_some, by_id, Bool.false_and]

/-- A filter with a pattern that ends in a star leaves nothing of a package that has the start, in
whatever case of ASCII letters. It matches just where the start does not end in a capital sigma that
a letter of the same word follows in the name. -/
theorem Assembly.star_pattern_excludes (calls : List Added) {f : Filter} {start : String}
    (listed : start ++ "*" ∈ f.packages) {p : Package} (there : p ∈ (finished calls).packages)
    {first rest : String} (named : p.name = first ++ rest)
    (same : sameAsciiCase first start = true) :
    (matchesPackage (start ++ "*") p.name = true ↔
      ¬(endsInSigma start.toList = true ∧ leadsToCased rest.toList = true)) ∧
    (¬(endsInSigma start.toList = true ∧ leadsToCased rest.toList = true) →
      f.Excludes (finished calls) p) := by
  have matching : matchesPackage (start ++ "*") p.name = true ↔
      ¬(endsInSigma start.toList = true ∧ leadsToCased rest.toList = true) := by
    rw [named, ← matches_lowercase, lowercase_append_of_same_case rest same, matches_lowercase,
      matches_start_iff]
  refine ⟨matching, fun apart => (measurable calls).excludes there ?_⟩
  have found : (f.packages.any fun pattern => matchesPackage pattern p.name) = true :=
    List.any_eq_true.mpr ⟨_, listed, matching.mpr apart⟩
  rw [Filter.acceptsPackage, found, Bool.not_true]

/-- Two packages whose names have one start. In the first of them a word ends there. -/
def Assembly.sigmaPackages : Added := .source "sigma.php"
  "<?php namespace vΑΣ\\Β; class C {} namespace VΑΣΒ; class D {}"

theorem Assembly.sigma_packages : ∃ p ∈ (finished [sigmaPackages]).packages, p.name = "vΑΣ\\Β" ∧
    ∃ p' ∈ (finished [sigmaPackages]).packages, p'.name = "VΑΣΒ" := by
  decide +kernel

/-- A pattern with that start leaves nothing of the one package, and all of the other. -/
theorem Assembly.star_pattern_excludes_sigma :
    ∃ p ∈ (finished [sigmaPackages]).packages, p.name = "vΑΣ\\Β" ∧
      Filter.Excludes ⟨["VΑΣ*"], []⟩ (finished [sigmaPackages]) p ∧
      ∃ p' ∈ (finished [sigmaPackages]).packages, p'.name = "VΑΣΒ" ∧
        Filter.acceptsPackage ⟨["VΑΣ*"], []⟩ p' = true := by
  obtain ⟨p, there, name, p', there', name'⟩ := sigma_packages
  have split : p.name = "vΑΣ" ++ "\\Β" := name.trans (by decide)
  have split' : p'.name = "VΑΣ" ++ "Β" := name'.trans (by decide)
  have listed : "VΑΣ" ++ "*" ∈ Filter.packages ⟨["VΑΣ*"], []⟩ := by decide
  have excluded := (star_pattern_excludes [sigmaPackages] listed there split (by decide)).2
  have missed := (star_pattern_excludes [sigmaPackages] listed there' split' (by decide)).1
  refine ⟨p, there, name, excluded (by decide +kernel), p', there', name', ?_⟩
  have no_match : matchesPackage ("VΑΣ" ++ "*") p'.name = false := by
    rw [Bool.eq_false_iff, ne_eq, missed, not_not]
    decide +kernel
  rw [Filter.acceptsPackage]
  simpa using no_match

end PhpAnalyser
