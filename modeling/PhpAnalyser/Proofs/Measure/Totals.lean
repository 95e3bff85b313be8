import Mathlib.Algebra.GroupWithZero.Nat
import PhpAnalyser.Measure.Registry
import PhpAnalyser.Proofs.Measure.Accepted
import PhpAnalyser.Proofs.Measure.Runs
import PhpAnalyser.Proofs.Text.SortedMap
/-!
What the analyzers find. Accepted types and callables are measured, each with what is its own, and
no analyzer of the one kind has anything of the other. Project metrics are sums and counts over what
a filter accepts, whatever packages it stands in.
-/
namespace PhpAnalyser

namespace MetricMap

variable {counts : List (String × Nat)}

theorem ordered_of_counts (counts : List (String × Nat)) : SortedMap.Ordered (ofCounts counts) :=
  SortedMap.ordered_of_list _

theorem lookup_counts (counts : List (String × Nat)) (key : String) :
    (counts.map fun entry => (entry.1, Amount.whole entry.2)).lookup key =
      (counts.lookup key).map .whole := by
  induction counts with
  | nil => rfl
  | cons entry rest ih =>
    rw [List.map_cons, List.lookup_cons, List.lookup_cons, ih]
    cases key == entry.1 <;> rfl

theorem find_of_counts (once : (counts.map (·.1)).Nodup) (key : String) :
    SortedMap.find? (ofCounts counts) key = (counts.lookup key).map .whole := by
  rw [ofCounts, SortedMap.find_of_list (by rwa [List.map_map]), lookup_counts]

end MetricMap

namespace NodeMetrics

variable {α : Type} {xs : List α}

theorem of_absent {table : NodeMetrics} {e : EntityId} (absent : ∀ row ∈ table, row.1 ≠ e) :
    table.of e = [] := by
  have unknown : List.lookup e table = none := by
    refine List.lookup_eq_none_iff.mpr fun row listed => ?_
    simpa using (absent row listed).symm
  rw [of, unknown]
  rfl

theorem of_append {table : NodeMetrics} {e : EntityId} (absent : ∀ row ∈ table, row.1 ≠ e)
    (rest : NodeMetrics) : NodeMetrics.of (table ++ rest) e = rest.of e := by
  have unknown : List.lookup e table = none := by
    refine List.lookup_eq_none_iff.mpr fun row listed => ?_
    simpa using (absent row listed).symm
  rw [of, List.lookup_append, unknown]
  rfl

/-- An entry has its own metrics, unless an entry of the same entity has others. -/
theorem of_map (entity : α → EntityId) (metrics : α → MetricMap) {x : α} (listed : x ∈ xs)
    (same : ∀ y ∈ xs, entity y = entity x → metrics y = metrics x) :
    NodeMetrics.of (xs.map fun y => (entity y, metrics y)) (entity x) = metrics x := by
  cases found : List.lookup (entity x) (xs.map fun y => (entity y, metrics y)) with
  | none =>
    have no_row := List.lookup_eq_none_iff.mp found (entity x, metrics x) <|
      List.mem_map_of_mem (f := fun y => (entity y, metrics y)) listed
    simp at no_row
  | some known =>
    obtain ⟨y, there, row⟩ := List.mem_map.mp (mem_of_lookup found)
    obtain ⟨here, rfl⟩ := Prod.mk.inj row
    rw [of, found, Option.getD_some, same y there here]

end NodeMetrics

namespace CodeModel

variable {m : CodeModel} {d : TypeDecl} {c : Callable}

theorem mem_of_methods (listed : c ∈ m.methodsOf d) : c ∈ m.callables := by
  obtain ⟨id, -, found⟩ := List.mem_filterMap.mp listed
  exact Array.mem_of_getElem? found

def complexity (m : CodeModel) (c : Callable) : Complexity :=
  (FileTable.complexity m.file? c.file c.body).getD ⟨0, 0⟩

end CodeModel

variable {m : CodeModel} {f : Filter} {d : TypeDecl} {c : Callable}

theorem Filter.mem_accepted_callables (listed : c ∈ f.acceptedCallables m) : c ∈ m.callables := by
  rcases List.mem_append.mp listed with method | function
  · obtain ⟨d, -, here⟩ := List.mem_flatMap.mp method
    exact CodeModel.mem_of_methods here
  · exact (Filter.mem_accepted_functions.mp function).1

theorem Complexity.find_metrics (c : Complexity) {key : String} {n : Nat}
    (counted : (key, n) ∈ [("ccn", c.ccn), ("ccn2", c.ccn2)]) :
    SortedMap.find? c.metrics key = some (.whole n) := by
  have once : ([("ccn", c.ccn), ("ccn2", c.ccn2)].map (·.1)).Nodup := by simp
  rw [metrics, MetricMap.find_of_counts once, lookup_of_mem once counted]
  rfl

namespace ClassLevel

variable (complexity : NodeMetrics) (d : TypeDecl)

theorem metrics_ordered : SortedMap.Ordered (metrics m complexity d) :=
  (MetricMap.ordered_of_counts _).put _ _

theorem find_weight : SortedMap.find? (metrics m complexity d) "wmc" =
    some (weightedMethods m complexity d) := by
  rw [metrics, SortedMap.find_put, if_pos rfl]

theorem no_size : SortedMap.find? (metrics m complexity d) "nom" = none := by
  rw [metrics, SortedMap.find_put, if_neg (by decide), MetricMap.find_of_counts (by simp)]
  rfl

end ClassLevel

theorem class_level_nodes (results : Results) : (ClassLevel.analyzer.measure m f results).nodes =
    ((f.packagesOf m).flatMap (ClassLevel.classesOf m f)).map fun d =>
      (d.entity, ClassLevel.metrics m (results.of Complexity.analyzer.id) d) := rfl

/-- No package is at a node. -/
theorem node_count_at (results : Results) (file node : Nat) :
    (NodeCount.analyzer.measure m f results).nodes.of (.node file node) =
      (NodeCount.typeMetrics m f).of (.node file node) := by
  refine NodeMetrics.of_append (fun row listed => ?_) _
  obtain ⟨p, -, rfl⟩ := List.mem_map.mp listed
  simp

namespace CodeModel.Measurable

variable (measurable : m.Measurable)

include measurable

theorem measured_eq : Complexity.measured m f =
    ((f.packagesOf m).flatMap (Complexity.callablesOf m f)).map fun c =>
      (c.entity, m.complexity c) := by
  rw [Complexity.measured, ← List.filterMap_eq_map]
  refine List.filterMap_congr fun c listed => ?_
  have there : c ∈ m.callables :=
    Filter.mem_accepted_callables
      ((Filter.accepted_callables_perm measurable.indexed).mem_iff.mp listed)
  obtain ⟨file, found⟩ := measurable.callables_filed c there
  simp [CodeModel.tree?, CodeModel.complexity, FileTable.complexity, found]

/-- Callables of one entity have one complexity. -/
theorem complexity_of_entity (there : c ∈ m.callables) {e : Callable} (here : e ∈ m.callables)
    (same : e.entity = c.entity) : m.complexity e = m.complexity c := by
  rw [CodeModel.complexity, CodeModel.complexity, measurable.callable_entity e here c there same,
    (EntityId.node.inj same).1]

section Complexity

variable (results : Results)

theorem complexity_nodes : (Complexity.analyzer.measure m f results).nodes =
    ((f.packagesOf m).flatMap (Complexity.callablesOf m f)).map fun c =>
      (c.entity, (m.complexity c).metrics) := by
  have nodes : (Complexity.analyzer.measure m f results).nodes =
      (Complexity.measured m f).map fun entry => (entry.1, entry.2.metrics) := rfl
  rw [nodes, measurable.measured_eq, List.map_map]
  rfl

theorem complexity_of (listed : c ∈ f.acceptedCallables m) :
    (Complexity.analyzer.measure m f results).nodes.of c.entity = (m.complexity c).metrics := by
  have perm := Filter.accepted_callables_perm (f := f) measurable.indexed
  rw [measurable.complexity_nodes]
  refine NodeMetrics.of_map Callable.entity (fun c => (m.complexity c).metrics)
    (perm.mem_iff.mpr listed) fun e here same => ?_
  have known := Filter.mem_accepted_callables (perm.mem_iff.mp here)
  rw [measurable.complexity_of_entity (Filter.mem_accepted_callables listed) known same]

theorem complexity_of_type (there : d ∈ m.types) :
    (Complexity.analyzer.measure m f results).nodes.of d.entity = [] := by
  rw [measurable.complexity_nodes]
  refine NodeMetrics.of_absent fun row listed => ?_
  obtain ⟨c, here, rfl⟩ := List.mem_map.mp listed
  have known := Filter.mem_accepted_callables
    ((Filter.accepted_callables_perm measurable.indexed).mem_iff.mp here)
  exact (measurable.entities_apart d there c known).symm

end Complexity

section ClassLevel

variable (results : Results)

theorem classes_perm : ((f.packagesOf m).flatMap (ClassLevel.classesOf m f)).Perm
    ((f.acceptedTypes m).filter (·.kind = .class_)) := by
  have split : (f.packagesOf m).flatMap (ClassLevel.classesOf m f) =
      ((f.packagesOf m).flatMap (f.typesOf m)).filter (·.kind = .class_) :=
    List.filter_flatMap.symm
  rw [split]
  exact (Filter.accepted_types_perm measurable.indexed).filter _

theorem class_level_of (listed : d ∈ f.acceptedTypes m) (is_class : d.kind = .class_) :
    (ClassLevel.analyzer.measure m f results).nodes.of d.entity =
      ClassLevel.metrics m (results.of Complexity.analyzer.id) d := by
  have perm := measurable.classes_perm (f := f)
  have there := (Filter.mem_accepted_types.mp listed).1
  refine NodeMetrics.of_map TypeDecl.entity (ClassLevel.metrics m _)
    (perm.mem_iff.mpr (List.mem_filter.mpr ⟨listed, by simpa using is_class⟩)) fun e here same => ?_
  have known := (Filter.mem_accepted_types.mp (List.mem_filter.mp (perm.mem_iff.mp here)).1).1
  rw [measurable.type_entity e known d there same]

theorem class_level_of_other (there : d ∈ m.types) (other : d.kind ≠ .class_) :
    (ClassLevel.analyzer.measure m f results).nodes.of d.entity = [] := by
  rw [class_level_nodes]
  refine NodeMetrics.of_absent fun row listed => ?_
  obtain ⟨e, here, rfl⟩ := List.mem_map.mp listed
  obtain ⟨accepted, is_class⟩ := List.mem_filter.mp (measurable.classes_perm.mem_iff.mp here)
  intro same
  rw [measurable.type_entity e (Filter.mem_accepted_types.mp accepted).1 d there same] at is_class
  exact other (of_decide_eq_true is_class)

theorem class_level_of_callable (there : c ∈ m.callables) :
    (ClassLevel.analyzer.measure m f results).nodes.of c.entity = [] := by
  rw [class_level_nodes]
  refine NodeMetrics.of_absent fun row listed => ?_
  obtain ⟨e, here, rfl⟩ := List.mem_map.mp listed
  have accepted := (List.mem_filter.mp (measurable.classes_perm.mem_iff.mp here)).1
  exact measurable.entities_apart e (Filter.mem_accepted_types.mp accepted).1 c there

/-- The weight of an accepted class is made of the complexities of its methods. -/
theorem weighted_methods (listed : d ∈ f.acceptedTypes m) :
    ClassLevel.weightedMethods m (Complexity.analyzer.measure m f results).nodes d =
      .sum ((m.methodsOf d).map fun c => .whole (m.complexity c).ccn) := by
  have each : (m.methodsOf d).filterMap (fun c => SortedMap.find?
      ((Complexity.analyzer.measure m f results).nodes.of c.entity) "ccn") =
        (m.methodsOf d).map fun c => .whole (m.complexity c).ccn := by
    rw [← List.filterMap_eq_map]
    refine List.filterMap_congr fun c here => ?_
    have measured : c ∈ f.acceptedCallables m :=
      List.mem_append_left _ (List.mem_flatMap.mpr ⟨d, listed, here⟩)
    rw [measurable.complexity_of results measured]
    exact Complexity.find_metrics _ List.mem_cons_self
  rw [ClassLevel.weightedMethods, each]

end ClassLevel

section NodeCount

variable (results : Results)

theorem node_count_of (listed : d ∈ f.acceptedTypes m) :
    (NodeCount.analyzer.measure m f results).nodes.of d.entity =
      .ofCounts [("nom", d.methods.length)] := by
  have perm := Filter.accepted_types_perm (f := f) measurable.indexed
  have there := (Filter.mem_accepted_types.mp listed).1
  rw [TypeDecl.entity, node_count_at]
  refine NodeMetrics.of_map TypeDecl.entity
    (fun d => .ofCounts [("nom", d.methods.length)]) (perm.mem_iff.mpr listed) fun e here same => ?_
  have known := (Filter.mem_accepted_types.mp (perm.mem_iff.mp here)).1
  rw [measurable.type_entity e known d there same]

theorem node_count_of_callable (there : c ∈ m.callables) :
    (NodeCount.analyzer.measure m f results).nodes.of c.entity = [] := by
  rw [Callable.entity, node_count_at]
  refine NodeMetrics.of_absent fun row listed => ?_
  obtain ⟨e, here, rfl⟩ := List.mem_map.mp listed
  have accepted := (Filter.accepted_types_perm measurable.indexed).mem_iff.mp here
  exact measurable.entities_apart e (Filter.mem_accepted_types.mp accepted).1 c there

end NodeCount

end CodeModel.Measurable

theorem Amount.sum_to_nat (amounts : List Amount) :
    (Amount.sum amounts).toNat = (amounts.map Amount.toNat).sum := by
  have behind (amounts : List Amount) : ∀ start : Amount,
      (amounts.foldl Amount.add start).toNat = start.toNat + (amounts.map Amount.toNat).sum := by
    induction amounts with
    | nil => exact fun start => rfl
    | cons a rest ih =>
      intro start
      rw [List.foldl_cons, ih, Amount.to_nat_add, List.map_cons, List.sum_cons, Nat.add_assoc]
  rw [Amount.sum, behind]
  exact Nat.zero_add _

namespace Complexity

theorem total_eq (measured : List (EntityId × Complexity)) :
    total measured = ⟨(measured.map (·.2.ccn)).sum, (measured.map (·.2.ccn2)).sum⟩ := by
  have behind (measured : List (EntityId × Complexity)) : ∀ start : Complexity,
      (measured.map (·.2)).foldl add start = ⟨start.ccn + (measured.map (·.2.ccn)).sum,
        start.ccn2 + (measured.map (·.2.ccn2)).sum⟩ := by
    induction measured with
    | nil => exact fun start => rfl
    | cons entry rest ih =>
      intro start
      simp only [List.map_cons, List.foldl_cons, List.sum_cons, ih, add, Nat.add_assoc]
  rw [total, behind]
  simp only [Nat.zero_add]

def counts (m : CodeModel) (f : Filter) : List (String × Nat) :=
  [("ccn", ((f.acceptedCallables m).map fun c => (m.complexity c).ccn).sum),
    ("ccn2", ((f.acceptedCallables m).map fun c => (m.complexity c).ccn2).sum)]

theorem project_eq (measurable : m.Measurable) (results : Results) :
    (analyzer.measure m f results).project = .ofCounts (counts m f) := by
  have perm := Filter.accepted_callables_perm (f := f) measurable.indexed
  have project : (analyzer.measure m f results).project = (total (measured m f)).metrics := rfl
  rw [project, total_eq, measurable.measured_eq, List.map_map, List.map_map, counts, metrics,
    ← (perm.map _).sum_nat, ← (perm.map _).sum_nat]
  rfl

end Complexity

namespace Hierarchy

def counts (m : CodeModel) (f : Filter) : List (String × Nat) :=
  let counted := (f.acceptedTypes m).filter (·.kind = .class_)
  [("clsa", counted.countP (·.isAbstract)),
    ("clsc", counted.length - counted.countP (·.isAbstract)),
    ("roots", (parents m f).countP (·.parent.isNone)),
    ("leafs", counted.length - (parents m f).length)]

theorem project_eq (measurable : m.Measurable) (results : Results) :
    (analyzer.measure m f results).project = .ofCounts (counts m f) := by
  have perm : (classes m f).Perm ((f.acceptedTypes m).filter (·.kind = .class_)) :=
    measurable.classes_perm
  have project : (analyzer.measure m f results).project = metrics m f := rfl
  rw [project, metrics, counts, ← perm.countP_eq, ← perm.length_eq]

end Hierarchy

namespace NodeCount

theorem total_eq (each : List NodeCount) : each.foldl add ⟨0, 0, 0, 0⟩ =
    ⟨(each.map (·.classes)).sum, (each.map (·.interfaces)).sum, (each.map (·.methods)).sum,
      (each.map (·.functions)).sum⟩ := by
  have behind (each : List NodeCount) : ∀ start : NodeCount, each.foldl add start =
      ⟨start.classes + (each.map (·.classes)).sum, start.interfaces + (each.map (·.interfaces)).sum,
        start.methods + (each.map (·.methods)).sum,
        start.functions + (each.map (·.functions)).sum⟩ := by
    induction each with
    | nil => exact fun start => rfl
    | cons count rest ih =>
      intro start
      simp only [List.map_cons, List.foldl_cons, List.sum_cons, ih, add, Nat.add_assoc]
  rw [behind]
  simp only [Nat.zero_add]

def counts (m : CodeModel) (f : Filter) : List (String × Nat) :=
  [("noc", (f.acceptedTypes m).countP (·.kind = .class_)),
    ("noi", (f.acceptedTypes m).countP (·.kind = .interface_)),
    ("nom", ((f.acceptedTypes m).map (·.methods.length)).sum),
    ("nof", (f.acceptedFunctions m).length),
    ("nop", (f.packagesOf m).length)]

theorem project_eq (indexed : m.Indexed) (results : Results) :
    (analyzer.measure m f results).project = .ofCounts (counts m f) := by
  have types := Filter.accepted_types_perm (f := f) indexed
  have functions := Filter.accepted_functions_perm (f := f) indexed
  have kinds (kind : TypeKind) : ((f.packagesOf m).map fun p =>
      (f.typesOf m p).countP (·.kind = kind)).sum = (f.acceptedTypes m).countP (·.kind = kind) := by
    rw [← types.countP_eq, List.countP_flatMap]
    rfl
  have methods : ((f.packagesOf m).map fun p => ((f.typesOf m p).flatMap (·.methods)).length).sum =
      ((f.acceptedTypes m).map (·.methods.length)).sum := by
    rw [← (types.map _).sum_nat, ← List.length_flatMap, ← List.length_flatMap, List.flatMap_assoc]
  have total : ((f.packagesOf m).map (ofPackage m f)).foldl add ⟨0, 0, 0, 0⟩ =
      ⟨(f.acceptedTypes m).countP (·.kind = .class_),
        (f.acceptedTypes m).countP (·.kind = .interface_),
        ((f.acceptedTypes m).map (·.methods.length)).sum, (f.acceptedFunctions m).length⟩ := by
    rw [total_eq, List.map_map, List.map_map, List.map_map, List.map_map, ← kinds, ← kinds,
      ← methods, ← functions.length_eq, List.length_flatMap]
    rfl
  have project : (analyzer.measure m f results).project = projectMetrics m f := rfl
  rw [project, projectMetrics, total]
  rfl

end NodeCount

end PhpAnalyser
