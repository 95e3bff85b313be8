import PhpAnalyser.Proofs.Measure.Accepted
import PhpAnalyser.Proofs.Text.SortedMap
import PhpAnalyser.Report.Basic
/-!
How a report groups its items: each file name is listed once, in order, with the items of that
file and no others.
-/
namespace PhpAnalyser

namespace Report

variable {types : List (String × MeasuredType)} {functions : List (String × MeasuredItem)}

theorem file_names_sorted : (fileNames types functions).Pairwise (· < ·) :=
  List.pairwise_map.mpr (SortedMap.ordered_of_list _)

theorem file_names_once : (fileNames types functions).Nodup :=
  file_names_sorted.imp ne_of_lt

theorem mem_file_names {name : String} : name ∈ fileNames types functions ↔
    name ∈ types.map (·.1) ∨ name ∈ functions.map (·.1) := by
  have keys := SortedMap.mem_keys_union ([] : SortedMap Unit)
    ((types.map (·.1) ++ functions.map (·.1)).map (·, ())) name
  have listed : name ∈ fileNames types functions ↔
      ∃ value, SortedMap.find? (SortedMap.ofList
        ((types.map (·.1) ++ functions.map (·.1)).map (·, ()))) name = some value := by
    rw [fileNames, List.mem_map]
    constructor
    · rintro ⟨⟨_, value⟩, there, rfl⟩
      exact ⟨value, ((SortedMap.ordered_of_list _).mem_iff _ _).mp there⟩
    · rintro ⟨value, found⟩
      exact ⟨_, ((SortedMap.ordered_of_list _).mem_iff _ _).mpr found, rfl⟩
  rw [listed, ← Option.isSome_iff_exists, SortedMap.ofList, keys, List.map_map]
  simp [SortedMap.find?]

def entries {α : Type} (files : List MeasuredFile) (items : MeasuredFile → List α) :
    List (String × α) :=
  files.flatMap fun file => (items file).map (file.name, ·)

/-- Items grouped by files are the same items. -/
theorem grouped_perm {α : Type} {names : List String} (once : names.Nodup)
    {items : List (String × α)} (each : ∀ item ∈ items, item.1 ∈ names) :
    (names.flatMap fun name => (inFile name items).map (name, ·)).Perm items := by
  have group (name : String) :
      (inFile name items).map (name, ·) = items.filter (·.1 = name) := by
    rw [inFile, List.map_map]
    refine (List.map_congr_left fun item listed => ?_).trans (List.map_id _)
    have here : item.1 = name := of_decide_eq_true (List.mem_filter.mp listed).2
    exact Prod.ext here.symm rfl
  rw [List.flatMap_congr fun name _ => group name]
  exact partition_perm Prod.fst once each

theorem types_listed : (entries (byFile types functions) (·.types)).Perm types := by
  rw [entries, byFile, List.flatMap_map]
  exact grouped_perm file_names_once fun item listed =>
    mem_file_names.mpr (.inl (List.mem_map_of_mem listed))

theorem functions_listed : (entries (byFile types functions) (·.functions)).Perm functions := by
  rw [entries, byFile, List.flatMap_map]
  exact grouped_perm file_names_once fun item listed =>
    mem_file_names.mpr (.inr (List.mem_map_of_mem listed))

theorem names_of_files : (byFile types functions).map (·.name) = fileNames types functions := by
  rw [byFile, List.map_map]
  exact List.map_id _

section Model

variable (m : CodeModel) (r : Engine.Run) (t : Renaming) (f : Filter)

theorem types_eq : Report.types m r t f =
    (f.acceptedTypes m).map fun d => (fileName m d.file, typeItem m r t d) := rfl

theorem functions_eq : Report.functions m r t f =
    (f.acceptedFunctions m).map fun c => (fileName m c.file, item r t c) := rfl

end Model

theorem in_file_map {α β : Type} (file : α → String) (show_ : α → β) (xs : List α) (name : String) :
    inFile name (xs.map fun x => (file x, show_ x)) = (xs.filter (file · = name)).map show_ := by
  rw [inFile, List.filter_map, List.map_map]
  rfl

end Report

end PhpAnalyser
