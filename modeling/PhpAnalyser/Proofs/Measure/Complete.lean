import PhpAnalyser.Proofs.Measure.Totals
/-!
Runs of all analyzers that come with the program, in any order of their registration. Each metric
of the project, of a type or of a callable is what the one analyzer that counts it has found.
-/
namespace PhpAnalyser

namespace Registry

theorem builtin_cases {a : Analyzer} (listed : a ∈ builtin) : a = ClassLevel.analyzer ∨
    a = Complexity.analyzer ∨ a = Hierarchy.analyzer ∨ a = NodeCount.analyzer := by
  simpa [builtin] using listed

theorem class_level_builtin : ClassLevel.analyzer ∈ builtin := by simp [builtin]

theorem complexity_builtin : Complexity.analyzer ∈ builtin := by simp [builtin]

theorem hierarchy_builtin : Hierarchy.analyzer ∈ builtin := by simp [builtin]

theorem node_count_builtin : NodeCount.analyzer ∈ builtin := by simp [builtin]

theorem ids_apart : (builtin.map (·.id)).Nodup := by decide

theorem builtin_shaped : ∀ a ∈ builtin,
    a.capabilities.perNode = true ∧ a.capabilities.filtered = true := by decide

/-- What others depend on depends on nothing itself. -/
theorem dependencies_grounded : ∀ a ∈ builtin, ∀ id ∈ a.dependencies,
    ∃ b ∈ builtin, b.id = id ∧ b.dependencies.isEmpty = true := by decide

/-! #### What is counted of a project -/

section Counts

variable (m : CodeModel) (f : Filter)

def countsOf (id : String) : List (String × Nat) :=
  if id = Complexity.analyzer.id then Complexity.counts m f
  else if id = Hierarchy.analyzer.id then Hierarchy.counts m f
  else if id = NodeCount.analyzer.id then NodeCount.counts m f
  else []

def counts : List (String × Nat) :=
  Complexity.counts m f ++ Hierarchy.counts m f ++ NodeCount.counts m f

variable {m f}

theorem count_names : (counts m f).map (·.1) =
    ["ccn", "ccn2", "clsa", "clsc", "roots", "leafs", "noc", "noi", "nom", "nof", "nop"] := rfl

theorem counts_once : ((counts m f).map (·.1)).Nodup := by
  rw [count_names]
  decide

/-- No analyzer counts files. -/
theorem not_files {key : String} {n : Nat} (listed : (key, n) ∈ counts m f) : key ≠ "files" := by
  rintro rfl
  have named : "files" ∈ (counts m f).map (·.1) := List.mem_map_of_mem listed
  rw [count_names] at named
  revert named
  decide

theorem counts_of_sublist (id : String) : (countsOf m f id).Sublist (counts m f) := by
  unfold countsOf counts
  split
  · rw [List.append_assoc]
    exact List.sublist_append_left ..
  split
  · exact (List.sublist_append_right ..).trans (List.sublist_append_left ..)
  split
  · exact List.sublist_append_right ..
  · exact List.nil_sublist _

theorem counts_of_once (id : String) : ((countsOf m f id).map (·.1)).Nodup :=
  counts_once.sublist ((counts_of_sublist id).map _)

/-- Analyzers do not contradict each other. -/
theorem find_counts_of (id : String) {key : String} {n : Nat} (listed : (key, n) ∈ counts m f) :
    SortedMap.find? (MetricMap.ofCounts (countsOf m f id)) key = none ∨
      SortedMap.find? (MetricMap.ofCounts (countsOf m f id)) key = some (.whole n) := by
  rw [MetricMap.find_of_counts (counts_of_once id)]
  cases found : (countsOf m f id).lookup key with
  | none => exact .inl rfl
  | some other =>
    have there := (counts_of_sublist id).subset (mem_of_lookup found)
    have same := List.inj_on_of_nodup_map counts_once there listed rfl
    exact .inr (by rw [(Prod.mk.inj same).2]; rfl)

/-- Each count is that of an analyzer. -/
theorem counted_by {key : String} {n : Nat} (listed : (key, n) ∈ counts m f) :
    ∃ a ∈ builtin, a.capabilities.perProject = true ∧
      SortedMap.find? (MetricMap.ofCounts (countsOf m f a.id)) key = some (.whole n) := by
  have own {a : Analyzer} (here : (key, n) ∈ countsOf m f a.id) :
      SortedMap.find? (MetricMap.ofCounts (countsOf m f a.id)) key = some (.whole n) := by
    rw [MetricMap.find_of_counts (counts_of_once a.id), lookup_of_mem (counts_of_once a.id) here]
    rfl
  obtain (complexity | hierarchy) | nodes := (List.mem_append.mp listed).imp_left List.mem_append.mp
  · exact ⟨_, complexity_builtin, rfl, own complexity⟩
  · exact ⟨_, hierarchy_builtin, rfl, own hierarchy⟩
  · exact ⟨_, node_count_builtin, rfl, own nodes⟩

theorem project_eq (measurable : m.Measurable) {a : Analyzer} (listed : a ∈ builtin)
    (results : Results) : (a.measure m f results).project = .ofCounts (countsOf m f a.id) := by
  rcases builtin_cases listed with rfl | rfl | rfl | rfl
  · rfl
  · exact Complexity.project_eq measurable results
  · exact Hierarchy.project_eq measurable results
  · exact NodeCount.project_eq measurable.indexed results

end Counts

theorem eq_of_id {a b : Analyzer} (first : a ∈ builtin) (second : b ∈ builtin)
    (same : a.id = b.id) : a = b :=
  List.inj_on_of_nodup_map ids_apart first second same

end Registry

namespace Engine.Run

structure Complete (m : CodeModel) (f : Filter) (r : Run) : Prop where
  analyzers : (r.instruments.map (·.analyzer)).Perm Registry.builtin
  filter : ∀ i ∈ r.instruments, i.filter = f
  told : ∀ i ∈ r.instruments, ∃ results, Told m r.instruments i results

end Engine.Run

/-- An engine with all analyzers finds an order for them, whatever it was before. -/
theorem Analysis.fresh_order {analyzers : List Analyzer} (all : analyzers.Perm Registry.builtin)
    (f : Filter) : ∃ e, (fresh analyzers f).order = (e, none) := by
  have instrument_of {a : Analyzer} (listed : a ∈ Registry.builtin) :
      Instrument.ofAnalyzer a ∈ (fresh analyzers f).instruments :=
    List.mem_map_of_mem (all.mem_iff.mpr listed)
  have analyzer_of {i : Instrument} (there : i ∈ (fresh analyzers f).instruments) :
      i.analyzer ∈ Registry.builtin := by
    obtain ⟨a, listed, rfl⟩ := List.mem_map.mp there
    exact all.mem_iff.mp listed
  refine Engine.order_found rfl ?_ ?_
  · intro i there id asked
    obtain ⟨b, listed, rfl, -⟩ := Registry.dependencies_grounded _ (analyzer_of there) id asked
    exact List.mem_map.mpr ⟨_, instrument_of listed, rfl⟩
  · intro placed pending perm some_left
    have there {i : Instrument} (left_over : i ∈ pending) : i.analyzer ∈ Registry.builtin :=
      analyzer_of (perm.mem_iff.mp (List.mem_append_right _ left_over))
    by_cases free : ∃ i ∈ pending, i.analyzer.dependencies.isEmpty = true
    · obtain ⟨i, left_over, none_asked⟩ := free
      exact ⟨i, left_over, by rw [Engine.isReady, List.isEmpty_iff.mp none_asked]; rfl⟩
    · obtain ⟨i, left_over⟩ := List.exists_mem_of_ne_nil pending some_left
      refine ⟨i, left_over, List.all_eq_true.mpr fun id asked => ?_⟩
      obtain ⟨b, listed, rfl, grounded⟩ :=
        Registry.dependencies_grounded _ (there left_over) id asked
      rcases List.mem_append.mp (perm.mem_iff.mpr (instrument_of listed)) with here | waiting
      · exact List.any_eq_true.mpr ⟨_, here, decide_eq_true rfl⟩
      · exact absurd ⟨_, waiting, grounded⟩ free

/-- The run of all analyzers succeeds, and all of them have measured. -/
theorem Analysis.complete_run {analyzers : List Analyzer} (all : analyzers.Perm Registry.builtin)
    (f : Filter) (m : CodeModel) :
    ∃ r, ((fresh analyzers f).run m).2 = .ok r ∧ r.Complete m f := by
  obtain ⟨e, found⟩ := fresh_order all f
  obtain ⟨perm, sorted, same⟩ := Engine.order_ok rfl found
  have fresh_each : ∀ i ∈ e.instruments, i.findings = none := by
    intro i there
    obtain ⟨a, -, rfl⟩ := List.mem_map.mp (perm.mem_iff.mp there)
    rfl
  have listed : ∀ i ∈ e.instruments, i.analyzer ∈ Registry.builtin := by
    intro i there
    obtain ⟨a, member, rfl⟩ := List.mem_map.mp (perm.mem_iff.mp there)
    exact all.mem_iff.mp member
  obtain ⟨measured, ran⟩ := Engine.run_ok found m
  have filter : e.filter = f := same
  rw [filter] at ran
  refine ⟨_, ran, ?_, Engine.outcome_filter fresh_each fun i there =>
    (Registry.builtin_shaped _ (listed i there)).2, Engine.outcome_told fresh_each sorted⟩
  have each : (analyzers.map Instrument.ofAnalyzer).map (·.analyzer) = analyzers := by
    rw [List.map_map]
    exact List.map_id analyzers
  rw [Engine.outcome_analyzers fresh_each]
  exact (perm.map _).trans (each.symm ▸ all)

namespace Engine.Run

variable {r : Run}

theorem nodes_eq (r : Run) (e : EntityId) :
    r.nodes e = (r.perNode.map fun i => i.nodes.of e).foldl SortedMap.union [] := by
  rw [List.foldl_map]
  rfl

theorem merged_eq (r : Run) :
    r.mergedProject [] = (r.project.map (·.2)).foldl SortedMap.union [] := by
  rw [List.foldl_map]
  rfl

namespace Complete

variable {m : CodeModel} {f : Filter} (complete : r.Complete m f)

include complete

theorem builtin {i : Instrument} (there : i ∈ r.instruments) : i.analyzer ∈ Registry.builtin :=
  complete.analyzers.mem_iff.mp (List.mem_map_of_mem there)

theorem instrument {a : Analyzer} (listed : a ∈ Registry.builtin) :
    ∃ i ∈ r.instruments, i.analyzer = a :=
  List.mem_map.mp (complete.analyzers.mem_iff.mpr listed)

theorem per_node : r.perNode = r.instruments :=
  List.filter_eq_self.mpr fun _ there => (Registry.builtin_shaped _ (complete.builtin there)).1

/-- What an instrument has found is what its analyzer measures under the filter. -/
theorem found {i : Instrument} (there : i ∈ r.instruments) : ∃ results,
    i.findings = some (i.analyzer.measure m f results) ∧
      ∀ id ∈ i.analyzer.dependencies, ∃ j ∈ r.instruments, j.id = id ∧ results.of id = j.nodes := by
  obtain ⟨results, told⟩ := complete.told i there
  exact ⟨results, complete.filter i there ▸ told.findings, told.dependencies⟩

theorem nodes_of {i : Instrument} (there : i ∈ r.instruments) :
    ∃ results, i.nodes = (i.analyzer.measure m f results).nodes := by
  obtain ⟨results, found, -⟩ := complete.found there
  exact ⟨results, by rw [Instrument.nodes, found, Option.elim_some]⟩

/-- The weights of classes are computed from the complexities of this run. -/
theorem class_level_nodes {i : Instrument} (there : i ∈ r.instruments)
    (is : i.analyzer = ClassLevel.analyzer) : ∃ results results',
      i.nodes = (ClassLevel.analyzer.measure m f results).nodes ∧
      results.of Complexity.analyzer.id = (Complexity.analyzer.measure m f results').nodes := by
  obtain ⟨results, found, dependencies⟩ := complete.found there
  obtain ⟨j, other, id, given⟩ := dependencies Complexity.analyzer.id (by rw [is]; decide)
  have same : j.analyzer = Complexity.analyzer :=
    Registry.eq_of_id (complete.builtin other) Registry.complexity_builtin id
  obtain ⟨results', nodes⟩ := complete.nodes_of other
  refine ⟨results, results', ?_, ?_⟩
  · rw [Instrument.nodes, found, Option.elim_some, is]
  · rw [given, nodes, same]

theorem project_of {i : Instrument} (there : i ∈ r.instruments) :
    ∃ results, i.project = (i.analyzer.measure m f results).project := by
  obtain ⟨results, found, -⟩ := complete.found there
  exact ⟨results, by rw [Instrument.project, found, Option.elim_some]⟩

/-- The metrics of the project are all that is counted. -/
theorem merged_project (measurable : m.Measurable) {key : String} {n : Nat}
    (listed : (key, n) ∈ Registry.counts m f) :
    SortedMap.find? (r.mergedProject []) key = some (.whole n) := by
  have counted {i : Instrument} (there : i ∈ r.instruments) :
      i.project = .ofCounts (Registry.countsOf m f i.analyzer.id) := by
    obtain ⟨results, project⟩ := complete.project_of there
    rw [project]
    exact Registry.project_eq measurable (complete.builtin there) results
  rw [merged_eq]
  refine SortedMap.find_merged ?_ ?_ ?_
  · intro map member
    obtain ⟨entry, project, rfl⟩ := List.mem_map.mp member
    obtain ⟨i, there, rfl⟩ := List.mem_map.mp project
    rw [counted (List.mem_filter.mp there).1]
    exact MetricMap.ordered_of_counts _
  · intro map member
    obtain ⟨entry, project, rfl⟩ := List.mem_map.mp member
    obtain ⟨i, there, rfl⟩ := List.mem_map.mp project
    rw [counted (List.mem_filter.mp there).1]
    exact Registry.find_counts_of i.analyzer.id listed
  · obtain ⟨a, is_builtin, counts, own⟩ := Registry.counted_by listed
    obtain ⟨i, there, rfl⟩ := complete.instrument is_builtin
    have listed : (i.id, i.project) ∈ r.project :=
      List.mem_map.mpr ⟨i, List.mem_filter.mpr ⟨there, counts⟩, rfl⟩
    exact ⟨i.project, List.mem_map_of_mem listed, by rw [counted there, own]⟩

variable (measurable : m.Measurable)

include measurable

/-- Only one analyzer measures callables. -/
theorem callable_nodes {i : Instrument} (there : i ∈ r.instruments) {c : Callable}
    (listed : c ∈ f.acceptedCallables m) : i.nodes.of c.entity =
      if i.analyzer.id = Complexity.analyzer.id then (m.complexity c).metrics else [] := by
  have known := Filter.mem_accepted_callables listed
  obtain ⟨results, nodes⟩ := complete.nodes_of there
  rw [nodes]
  rcases Registry.builtin_cases (complete.builtin there) with is | is | is | is
  · rw [is, if_neg (by decide), measurable.class_level_of_callable results known]
  · rw [is, if_pos rfl, measurable.complexity_of results listed]
  · rw [is, if_neg (by decide)]
    rfl
  · rw [is, if_neg (by decide), measurable.node_count_of_callable results known]

theorem callable_metrics {c : Callable} (listed : c ∈ f.acceptedCallables m) {key : String}
    {n : Nat} (counted : (key, n) ∈ [("ccn", (m.complexity c).ccn), ("ccn2", (m.complexity c).ccn2)]) :
    SortedMap.find? (r.nodes c.entity) key = some (.whole n) := by
  have own := (m.complexity c).find_metrics counted
  rw [nodes_eq, complete.per_node]
  refine SortedMap.find_merged ?_ ?_ ?_
  · intro map member
    obtain ⟨i, there, rfl⟩ := List.mem_map.mp member
    rw [complete.callable_nodes measurable there listed]
    split
    · exact MetricMap.ordered_of_counts _
    · exact .nil
  · intro map member
    obtain ⟨i, there, rfl⟩ := List.mem_map.mp member
    rw [complete.callable_nodes measurable there listed]
    split
    · exact .inr own
    · exact .inl rfl
  · obtain ⟨i, there, is⟩ := complete.instrument Registry.complexity_builtin
    refine ⟨_, List.mem_map_of_mem there, ?_⟩
    rw [complete.callable_nodes measurable there listed, if_pos (by rw [is]), own]

section OfType

variable {d : TypeDecl} (listed : d ∈ f.acceptedTypes m)

include listed

/-- What the analyzers find of a type: its size, and if it is a class, what is measured of
classes. -/
theorem type_nodes {i : Instrument} (there : i ∈ r.instruments) :
    i.nodes.of d.entity = [] ∨ i.nodes.of d.entity = .ofCounts [("nom", d.methods.length)] ∨
      ∃ results, d.kind = .class_ ∧ i.nodes.of d.entity = ClassLevel.metrics m
        (Complexity.analyzer.measure m f results).nodes d := by
  have known := (Filter.mem_accepted_types.mp listed).1
  rcases Registry.builtin_cases (complete.builtin there) with is | is | is | is
  · obtain ⟨results, results', nodes, given⟩ := complete.class_level_nodes there is
    rw [nodes]
    by_cases is_class : d.kind = .class_
    · refine .inr (.inr ⟨results', is_class, ?_⟩)
      rw [measurable.class_level_of results listed is_class, given]
    · exact .inl (measurable.class_level_of_other results known is_class)
  · obtain ⟨results, nodes⟩ := complete.nodes_of there
    rw [nodes, is]
    exact .inl (measurable.complexity_of_type results known)
  · obtain ⟨results, nodes⟩ := complete.nodes_of there
    rw [nodes, is]
    exact .inl rfl
  · obtain ⟨results, nodes⟩ := complete.nodes_of there
    rw [nodes, is]
    exact .inr (.inl (measurable.node_count_of results listed))

theorem type_ordered {i : Instrument} (there : i ∈ r.instruments) :
    SortedMap.Ordered (i.nodes.of d.entity) := by
  obtain none | size | ⟨results, -, levels⟩ := complete.type_nodes measurable listed there
  · exact none ▸ .nil
  · exact size ▸ MetricMap.ordered_of_counts _
  · exact levels ▸ ClassLevel.metrics_ordered _ d

theorem size_metrics :
    SortedMap.find? (r.nodes d.entity) "nom" = some (.whole d.methods.length) := by
  rw [nodes_eq, complete.per_node]
  refine SortedMap.find_merged ?_ ?_ ?_
  · intro map member
    obtain ⟨i, there, rfl⟩ := List.mem_map.mp member
    exact complete.type_ordered measurable listed there
  · intro map member
    obtain ⟨i, there, rfl⟩ := List.mem_map.mp member
    obtain none | size | ⟨results, -, levels⟩ := complete.type_nodes measurable listed there
    · exact .inl (none ▸ rfl)
    · exact .inr (size ▸ rfl)
    · exact .inl (levels ▸ ClassLevel.no_size _ d)
  · obtain ⟨i, there, is⟩ := complete.instrument Registry.node_count_builtin
    refine ⟨_, List.mem_map_of_mem there, ?_⟩
    obtain ⟨results, nodes⟩ := complete.nodes_of there
    rw [nodes, is, measurable.node_count_of results listed]
    rfl

/-- A class weighs as much as the complexities of its methods. -/
theorem weight_metrics (is_class : d.kind = .class_) : ∃ weight,
    SortedMap.find? (r.nodes d.entity) "wmc" = some weight ∧
      weight.toNat = ((m.methodsOf d).map fun c => (m.complexity c).ccn).sum := by
  refine ⟨.sum ((m.methodsOf d).map fun c => .whole (m.complexity c).ccn), ?_, ?_⟩
  · rw [nodes_eq, complete.per_node]
    refine SortedMap.find_merged ?_ ?_ ?_
    · intro map member
      obtain ⟨i, there, rfl⟩ := List.mem_map.mp member
      exact complete.type_ordered measurable listed there
    · intro map member
      obtain ⟨i, there, rfl⟩ := List.mem_map.mp member
      obtain none | size | ⟨results, -, levels⟩ := complete.type_nodes measurable listed there
      · exact .inl (none ▸ rfl)
      · exact .inl (size ▸ rfl)
      · rw [levels, ClassLevel.find_weight, measurable.weighted_methods results listed]
        exact .inr rfl
    · obtain ⟨i, there, is⟩ := complete.instrument Registry.class_level_builtin
      refine ⟨_, List.mem_map_of_mem there, ?_⟩
      obtain ⟨results, results', nodes, given⟩ := complete.class_level_nodes there is
      rw [nodes, measurable.class_level_of results listed is_class, given, ClassLevel.find_weight,
        measurable.weighted_methods results' listed]
  · rw [Amount.sum_to_nat, List.map_map]
    rfl

end OfType

end Complete

end Engine.Run

end PhpAnalyser
