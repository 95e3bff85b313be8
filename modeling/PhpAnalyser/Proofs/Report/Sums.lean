import PhpAnalyser.Proofs.Measure.Complete
import PhpAnalyser.Proofs.Report.Listing
/-!
A report of all analyzers adds up: it lists what the filter accepts, and the metrics of the project
are the sums of what is listed.
-/
namespace PhpAnalyser

def MetricMap.amount (metrics : MetricMap) (key : String) : Nat :=
  (SortedMap.find? metrics key).elim 0 Amount.toNat

theorem MetricMap.amount_eq {metrics : MetricMap} {key : String} {n : Nat}
    (found : SortedMap.find? metrics key = some (.whole n)) : metrics.amount key = n := by
  rw [amount, found]
  rfl

namespace Report

def listedTypes (r : Report) : List (String × MeasuredType) := entries r.files (·.types)

def listedFunctions (r : Report) : List (String × MeasuredItem) := entries r.files (·.functions)

def listedCallables (r : Report) : List MeasuredItem :=
  r.listedTypes.flatMap (·.2.methods) ++ r.listedFunctions.map (·.2)

def total (r : Report) (key : String) (metrics : List MetricMap) : Prop :=
  SortedMap.find? r.project key = some (.whole (metrics.map (·.amount key)).sum)

/-- A report of a model lists what a filter accepts, and its sums are those of what it lists. -/
structure AddsUp (m : CodeModel) (f : Filter) (r : Report) : Prop where
  -- what is accepted is listed under the name of its file, and nothing else is listed
  types : (r.listedTypes.map fun (file, t) => (file, t.kind, t.name, t.methods.map (·.name))).Perm
    ((f.acceptedTypes m).map fun d =>
      (fileName m d.file, d.kind, d.qualifiedName, (m.methodsOf d).map (·.qualifiedName)))
  functions : (r.listedFunctions.map fun (file, c) => (file, c.name)).Perm
    ((f.acceptedFunctions m).map fun c => (fileName m c.file, c.qualifiedName))
  types_once : (r.listedTypes.map (·.2.name)).Nodup
  functions_once : (r.listedFunctions.map (·.2.name)).Nodup
  -- files
  names : (r.files.map (·.name)).Pairwise (· < ·)
  files : SortedMap.find? r.project "files" = some (.whole r.files.length)
  -- everything that is summed up was measured
  measured : ∀ c ∈ r.listedCallables,
    SortedMap.contains c.metrics "ccn" = true ∧ SortedMap.contains c.metrics "ccn2" = true
  sized : ∀ entry ∈ r.listedTypes, SortedMap.contains entry.2.metrics "nom" = true
  -- sums
  ccn : r.total "ccn" (r.listedCallables.map (·.metrics))
  ccn2 : r.total "ccn2" (r.listedCallables.map (·.metrics))
  nom : r.total "nom" (r.listedTypes.map (·.2.metrics))
  noc_noi : ∃ noc noi, SortedMap.find? r.project "noc" = some (.whole noc) ∧
    SortedMap.find? r.project "noi" = some (.whole noi) ∧
      noc + noi = (r.files.map (·.classCount)).sum
  nof : SortedMap.find? r.project "nof" = some (.whole (r.files.map (·.functions.length)).sum)
  clsa_clsc : ∃ clsa clsc, SortedMap.find? r.project "clsa" = some (.whole clsa) ∧
    SortedMap.find? r.project "clsc" = some (.whole clsc) ∧
      SortedMap.find? r.project "noc" = some (.whole (clsa + clsc))
  wmc : ∀ entry ∈ r.listedTypes, entry.2.kind = .class_ → ∃ weight,
    SortedMap.find? entry.2.metrics "wmc" = some weight ∧
      weight.toNat = (entry.2.methods.map (·.metrics.amount "ccn")).sum

section Build

variable {m : CodeModel} {run : Engine.Run} {f : Filter}

theorem listed_types : (build m run [] f).listedTypes.Perm
    ((f.acceptedTypes m).map fun d => (fileName m d.file, typeItem m run [] d)) :=
  types_listed

theorem listed_functions : (build m run [] f).listedFunctions.Perm
    ((f.acceptedFunctions m).map fun c => (fileName m c.file, item run [] c)) :=
  functions_listed

theorem listed_callables : (build m run [] f).listedCallables.Perm
    ((f.acceptedCallables m).map (item run [])) := by
  rw [Filter.acceptedCallables, List.map_append, List.map_flatMap]
  refine .append ?_ ?_
  · refine (listed_types.flatMap_right _).trans ?_
    rw [List.flatMap_map]
    exact .refl _
  · refine (listed_functions.map _).trans ?_
    rw [List.map_map]
    exact .refl _

theorem types_named :
    ((build m run [] f).listedTypes.map fun (file, t) =>
      (file, t.kind, t.name, t.methods.map (·.name))).Perm
    ((f.acceptedTypes m).map fun d =>
      (fileName m d.file, d.kind, d.qualifiedName, (m.methodsOf d).map (·.qualifiedName))) := by
  refine (listed_types.map _).trans ?_
  rw [List.map_map]
  refine .of_eq (List.map_congr_left fun d _ => ?_)
  simp [typeItem, item]

theorem functions_named :
    ((build m run [] f).listedFunctions.map fun (file, c) => (file, c.name)).Perm
      ((f.acceptedFunctions m).map fun c => (fileName m c.file, c.qualifiedName)) := by
  refine (listed_functions.map _).trans ?_
  rw [List.map_map]
  exact .refl _

theorem class_counts_listed : ((build m run [] f).files.map (·.classCount)).sum =
    (build m run [] f).listedTypes.countP (·.2.kind ≠ .trait_) := by
  rw [listedTypes, entries, List.countP_flatMap]
  refine congrArg List.sum (List.map_congr_left fun file _ => ?_)
  rw [Function.comp_apply, List.countP_map]
  rfl

theorem functions_counted : ((build m run [] f).files.map (·.functions.length)).sum =
    (build m run [] f).listedFunctions.length := by
  rw [listedFunctions, entries, List.length_flatMap]
  refine congrArg List.sum (List.map_congr_left fun file _ => ?_)
  rw [List.length_map]

/-- The number of files hides no other metric. -/
theorem project_of_build {key : String} (other : key ≠ "files") :
    SortedMap.find? (build m run [] f).project key =
      SortedMap.find? (run.mergedProject []) key := by
  rw [build, SortedMap.find_put, if_neg other]

theorem sum_of_listed {α β : Type} {listed : List α} {accepted : List β} {show_ : β → α}
    (perm : listed.Perm (accepted.map show_)) (measure : α → Nat) :
    (listed.map measure).sum = (accepted.map fun x => measure (show_ x)).sum := by
  rw [(perm.map measure).sum_nat, List.map_map]
  rfl

end Build

theorem class_count_eq (types : List TypeDecl) : types.countP (·.kind ≠ .trait_) =
    types.countP (·.kind = .class_) + types.countP (·.kind = .interface_) := by
  induction types with
  | nil => rfl
  | cons d rest ih =>
    rw [List.countP_cons, List.countP_cons, List.countP_cons, ih]
    cases d.kind <;> simp <;> omega

section Measured

variable {m : CodeModel} {run : Engine.Run} {f : Filter} (measurable : m.Measurable)
  (complete : run.Complete m f)

include measurable complete

/-- Any count of the project can be read off its report. -/
theorem found_of_counted {key : String} {n : Nat} (counted : (key, n) ∈ Registry.counts m f) :
    SortedMap.find? (build m run [] f).project key = some (.whole n) := by
  rw [project_of_build (Registry.not_files counted), complete.merged_project measurable counted]

/-- A sum over what is listed is the metric of the project if the same is counted there. -/
theorem total_of_counted {key : String} {n : Nat} (counted : (key, n) ∈ Registry.counts m f)
    {metrics : List MetricMap} (sum : (metrics.map (·.amount key)).sum = n) :
    (build m run [] f).total key metrics := by
  rw [total, found_of_counted measurable complete counted, sum]

theorem sum_over_callables {key : String} (count : Complexity → Nat)
    (counted : ∀ c : Complexity, (key, count c) ∈ [("ccn", c.ccn), ("ccn2", c.ccn2)]) :
    (((build m run [] f).listedCallables.map (·.metrics)).map (·.amount key)).sum =
      ((f.acceptedCallables m).map fun c => count (m.complexity c)).sum := by
  rw [List.map_map, sum_of_listed listed_callables]
  refine congrArg List.sum (List.map_congr_left fun c listed => ?_)
  exact MetricMap.amount_eq (complete.callable_metrics measurable listed (counted _))

theorem measured_of_listed {c : MeasuredItem} (listed : c ∈ (build m run [] f).listedCallables) :
    SortedMap.contains c.metrics "ccn" = true ∧ SortedMap.contains c.metrics "ccn2" = true := by
  obtain ⟨c, accepted, rfl⟩ := List.mem_map.mp (listed_callables.mem_iff.mp listed)
  have ccn := complete.callable_metrics measurable accepted List.mem_cons_self
  have ccn2 := complete.callable_metrics measurable accepted (List.mem_cons_of_mem _ List.mem_cons_self)
  exact ⟨Option.isSome_iff_exists.mpr ⟨_, ccn⟩, Option.isSome_iff_exists.mpr ⟨_, ccn2⟩⟩

theorem total_of_methods : (build m run [] f).total "nom"
    ((build m run [] f).listedTypes.map (·.2.metrics)) := by
  refine total_of_counted measurable complete
    (n := ((f.acceptedTypes m).map (·.methods.length)).sum) ?_ ?_
  · simp [Registry.counts, NodeCount.counts]
  · rw [List.map_map, sum_of_listed listed_types]
    refine congrArg List.sum (List.map_congr_left fun d listed => ?_)
    exact MetricMap.amount_eq (complete.size_metrics measurable listed)

theorem classes_and_interfaces : ∃ noc noi,
    SortedMap.find? (build m run [] f).project "noc" = some (.whole noc) ∧
      SortedMap.find? (build m run [] f).project "noi" = some (.whole noi) ∧
        noc + noi = ((build m run [] f).files.map (·.classCount)).sum := by
  refine ⟨(f.acceptedTypes m).countP (·.kind = .class_),
    (f.acceptedTypes m).countP (·.kind = .interface_),
    found_of_counted measurable complete (by simp [Registry.counts, NodeCount.counts]),
    found_of_counted measurable complete (by simp [Registry.counts, NodeCount.counts]), ?_⟩
  rw [class_counts_listed, listed_types.countP_eq, List.countP_map, ← class_count_eq]
  rfl

theorem abstract_and_concrete : ∃ clsa clsc,
    SortedMap.find? (build m run [] f).project "clsa" = some (.whole clsa) ∧
      SortedMap.find? (build m run [] f).project "clsc" = some (.whole clsc) ∧
        SortedMap.find? (build m run [] f).project "noc" = some (.whole (clsa + clsc)) := by
  let counted := (f.acceptedTypes m).filter (·.kind = .class_)
  have low : counted.countP (·.isAbstract) ≤ counted.length := List.countP_le_length
  have noc : (f.acceptedTypes m).countP (·.kind = .class_) = counted.length :=
    List.countP_eq_length_filter
  refine ⟨counted.countP (·.isAbstract), counted.length - counted.countP (·.isAbstract),
    found_of_counted measurable complete ?_, found_of_counted measurable complete ?_, ?_⟩
  · simp [Registry.counts, Hierarchy.counts, counted]
  · simp [Registry.counts, Hierarchy.counts, counted]
  · rw [Nat.add_sub_cancel' low, ← noc]
    exact found_of_counted measurable complete (by simp [Registry.counts, NodeCount.counts])

/-- The weight of a class is the sum over the methods that are listed below it. -/
theorem weight_of_listed {entry : String × MeasuredType}
    (listed : entry ∈ (build m run [] f).listedTypes) (is_class : entry.2.kind = .class_) :
    ∃ weight, SortedMap.find? entry.2.metrics "wmc" = some weight ∧
      weight.toNat = (entry.2.methods.map (·.metrics.amount "ccn")).sum := by
  obtain ⟨d, accepted, rfl⟩ := List.mem_map.mp (listed_types.mem_iff.mp listed)
  obtain ⟨weight, found, amount⟩ := complete.weight_metrics measurable accepted is_class
  refine ⟨weight, found, amount.trans ?_⟩
  rw [typeItem, List.map_map]
  refine congrArg List.sum (List.map_congr_left fun c here => ?_)
  have measured : c ∈ f.acceptedCallables m :=
    List.mem_append_left _ (List.mem_flatMap.mpr ⟨d, accepted, here⟩)
  have ccn := complete.callable_metrics measurable measured List.mem_cons_self
  exact (MetricMap.amount_eq ccn).symm

theorem build_adds_up : (build m run [] f).AddsUp m f where
  types := types_named
  functions := functions_named
  types_once := by
    refine ((listed_types.map (·.2.name)).nodup_iff).mpr ?_
    rw [List.map_map]
    exact measurable.indexed.type_names_once.sublist (List.filter_sublist.map _)
  functions_once := by
    refine ((listed_functions.map (·.2.name)).nodup_iff).mpr ?_
    rw [List.map_map]
    exact measurable.indexed.function_names_once.sublist (Filter.accepted_functions_sublist.map _)
  names := by
    rw [build, names_of_files]
    exact file_names_sorted
  files := by rw [build, SortedMap.find_put, if_pos rfl]
  measured _ := measured_of_listed measurable complete
  sized := by
    intro entry listed
    obtain ⟨d, accepted, rfl⟩ := List.mem_map.mp (listed_types.mem_iff.mp listed)
    exact Option.isSome_iff_exists.mpr ⟨_, complete.size_metrics measurable accepted⟩
  ccn := by
    refine total_of_counted measurable complete ?_
      (sum_over_callables measurable complete Complexity.ccn fun c => by simp)
    simp [Registry.counts, Complexity.counts]
  ccn2 := by
    refine total_of_counted measurable complete ?_
      (sum_over_callables measurable complete Complexity.ccn2 fun c => by simp)
    simp [Registry.counts, Complexity.counts]
  nom := total_of_methods measurable complete
  noc_noi := classes_and_interfaces measurable complete
  nof := by
    rw [functions_counted, listed_functions.length_eq, List.length_map]
    exact found_of_counted measurable complete (by simp [Registry.counts, NodeCount.counts])
  clsa_clsc := abstract_and_concrete measurable complete
  wmc _ := weight_of_listed measurable complete

end Measured

end Report

namespace Assembly

/-- With all analyzers, registered in any order, a run over the files of an assembly succeeds, and
its report adds up. -/
theorem report_adds_up (calls : List Added) (f : Filter) {analyzers : List Analyzer}
    (all : analyzers.Perm Registry.builtin) :
    ∃ e r, Analysis.engine analyzers f = .ok e ∧ (e.run (finished calls)).2 = .ok r ∧
      (Report.build (finished calls) r [] f).AddsUp (finished calls) f := by
  have apart : (analyzers.map (·.id)).Nodup := (all.map _).nodup_iff.mpr Registry.ids_apart
  have registered := Analysis.engine_registers f apart fun a listed =>
    .inl (Registry.builtin_shaped a (all.mem_iff.mp listed)).1
  obtain ⟨r, ran, complete⟩ := Analysis.complete_run all f (finished calls)
  exact ⟨_, r, registered, ran, Report.build_adds_up (measurable calls) complete⟩

def cartFile : Added :=
  .source "cart.php"
    "<?php class Cart { function total($a) { if ($a) {} } } function f() {}"

theorem report_adds_up_reversed : Registry.builtin.reverse.Perm Registry.builtin ∧
    ∃ e r, Analysis.engine Registry.builtin.reverse .all = .ok e ∧
      (e.run (finished [cartFile])).2 = .ok r ∧
        (Report.build (finished [cartFile]) r [] .all).AddsUp (finished [cartFile]) .all :=
  ⟨List.reverse_perm _, report_adds_up [cartFile] .all (List.reverse_perm _)⟩

end Assembly

end PhpAnalyser
