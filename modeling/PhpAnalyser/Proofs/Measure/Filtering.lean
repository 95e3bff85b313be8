import PhpAnalyser.Proofs.Measure.Alike
import PhpAnalyser.Proofs.Measure.Complete
/-!
Runs of all analyzers under two filters. A filter says what is measured and has no part in what is
found of it: what both accept has the same metrics in both runs, whatever else is rejected, parents
and neighbours included. Nothing is found of what a filter rejects.
-/
namespace PhpAnalyser

namespace FileKept

variable {calls : List Added} {a : Assembly} (kept : Kept calls a) {f : SourceFile}
  (file : FileKept a f) {c e : Callable} (first : c ∈ a.model.callables)
  (second : e ∈ a.model.callables) (here : c.file = f.tree.file) (same : c.entity = e.entity)

include file first second here same

/-- The kind of a node tells functions from methods. -/
theorem no_function_of_method {p owner : Nat} (function : c.kind = .function p)
    (method : e.kind = .method owner) : False := by
  obtain ⟨same_file, same_node⟩ := EntityId.node.inj same
  obtain ⟨byRef, is⟩ := (file.sourced.functions c first here p function).at_.head
  obtain ⟨d, -, -, -, at_⟩ := file.sourced.methods e second (same_file ▸ here) owner method
  obtain ⟨byRef', is'⟩ := at_.head
  rw [same_node, is'] at is
  cases is

include kept

/-- The node of a function has its name, and no other function has that. -/
theorem function_at_node {p q : Nat} (function : c.kind = .function p)
    (function' : e.kind = .function q) : c = e := by
  obtain ⟨same_file, same_node⟩ := EntityId.node.inj same
  obtain ⟨byRef, is⟩ := (file.sourced.functions c first here p function).at_.head
  obtain ⟨byRef', is'⟩ :=
    (file.sourced.functions e second (same_file ▸ here) q function').at_.head
  rw [same_node, is'] at is
  exact kept.indexed.eq_of_function_name first second (is_method_of_function function)
    (is_method_of_function function') (NodeKind.function_.inj is).1.symm

/-- The node of a method is below that of one type. -/
theorem owner_at_node {owner owner' : Nat} (method : c.kind = .method owner)
    (method' : e.kind = .method owner') : owner = owner' := by
  obtain ⟨same_file, same_node⟩ := EntityId.node.inj same
  obtain ⟨d, member, rfl, housed, at_⟩ := file.sourced.methods c first here owner method
  obtain ⟨d', member', rfl, housed', at_'⟩ :=
    file.sourced.methods e second (same_file ▸ here) owner' method'
  have above : d.node = d'.node :=
    file.treelike.parent _ _ _ at_.child (same_node ▸ at_'.child)
  have twins : d.entity = d'.entity := by
    rw [TypeDecl.entity, TypeDecl.entity, housed, housed', above]
  rw [kept.type_entity member member' twins]

end FileKept

/-- A node is that of one function, or of methods of one type. -/
theorem Kept.callable_kind_of_entity {calls : List Added} {a : Assembly} (kept : Kept calls a)
    {c e : Callable} (first : c ∈ a.model.callables) (second : e ∈ a.model.callables)
    (same : c.entity = e.entity) : c.kind = e.kind := by
  obtain ⟨f, there, filed⟩ := kept.callables_filed c first
  have file := kept.files f there
  have here : c.file = f.tree.file := filed.symm.trans file.file.symm
  have here' : e.file = f.tree.file := (EntityId.node.inj same).1 ▸ here
  cases kind : c.kind with
  | function p =>
    cases kind' : e.kind with
    | function q =>
      rw [← kind, ← kind', file.function_at_node kept first second here same kind kind']
    | method owner => exact (file.no_function_of_method first second here same kind kind').elim
  | method owner =>
    cases kind' : e.kind with
    | function q =>
      exact (file.no_function_of_method second first here' same.symm kind' kind).elim
    | method owner' => rw [file.owner_at_node kept first second here same kind kind']

theorem Assembly.callable_kind_of_entity (calls : List Added) :
    ∀ c ∈ (finished calls).callables, ∀ e ∈ (finished calls).callables,
      c.entity = e.entity → c.kind = e.kind :=
  fun _ first _ second same => (kept_after calls).callable_kind_of_entity first second same

variable {m : CodeModel} {f g : Filter} {d : TypeDecl} {c : Callable}

theorem Filter.accepts_callable_congr {e : Callable} (kind : c.kind = e.kind)
    (file : c.file = e.file) : f.acceptsCallable m c = f.acceptsCallable m e := by
  rw [acceptsCallable, acceptsCallable, packageOf, packageOf, kind, file]

namespace CodeModel.Measurable

variable (measurable : m.Measurable)

include measurable

theorem accepts_of_accepted_callables (listed : c ∈ f.acceptedCallables m) :
    f.acceptsCallable m c = true :=
  (List.mem_filter.mp (measurable.accepted_perm.mem_iff.mp listed)).2

theorem no_nodes_of_rejected_type {a : Analyzer} (listed : a ∈ Registry.builtin) (results : Results)
    (there : d ∈ m.types) (rejected : f.acceptsType m d = false) :
    (a.measure m f results).nodes.of d.entity = [] := by
  have other {e : TypeDecl} (accepted : e ∈ f.acceptedTypes m) : e.entity ≠ d.entity := by
    obtain ⟨known, passed⟩ := Filter.mem_accepted_types.mp accepted
    intro same
    rw [measurable.type_entity e known d there same, rejected] at passed
    cases passed
  rcases Registry.builtin_cases listed with rfl | rfl | rfl | rfl
  · rw [class_level_nodes]
    refine NodeMetrics.of_absent fun row there => ?_
    obtain ⟨e, here, rfl⟩ := List.mem_map.mp there
    exact other (List.mem_filter.mp (measurable.classes_perm.mem_iff.mp here)).1
  · exact measurable.complexity_of_type results there
  · rfl
  · rw [TypeDecl.entity, node_count_at]
    refine NodeMetrics.of_absent fun row there => ?_
    obtain ⟨e, here, rfl⟩ := List.mem_map.mp there
    exact other ((Filter.accepted_types_perm measurable.indexed).mem_iff.mp here)

theorem no_nodes_of_rejected_callable
    (kinds : ∀ c ∈ m.callables, ∀ e ∈ m.callables, c.entity = e.entity → c.kind = e.kind)
    {a : Analyzer} (listed : a ∈ Registry.builtin) (results : Results) (there : c ∈ m.callables)
    (rejected : f.acceptsCallable m c = false) :
    (a.measure m f results).nodes.of c.entity = [] := by
  rcases Registry.builtin_cases listed with rfl | rfl | rfl | rfl
  · exact measurable.class_level_of_callable results there
  · rw [measurable.complexity_nodes]
    refine NodeMetrics.of_absent fun row listed => ?_
    obtain ⟨e, here, rfl⟩ := List.mem_map.mp listed
    have accepted := (Filter.accepted_callables_perm measurable.indexed).mem_iff.mp here
    intro same
    have kind := kinds e (Filter.mem_accepted_callables accepted) c there same
    have passed := measurable.accepts_of_accepted_callables accepted
    rw [Filter.accepts_callable_congr kind (EntityId.node.inj same).1, rejected] at passed
    cases passed
  · rfl
  · exact measurable.node_count_of_callable results there

/-- The weight of a class is that of its methods, which a filter accepts with it. -/
theorem class_metrics_agree (first : d ∈ f.acceptedTypes m) (second : d ∈ g.acceptedTypes m)
    (results results' : Results) :
    ClassLevel.metrics m (Complexity.analyzer.measure m f results).nodes d =
      ClassLevel.metrics m (Complexity.analyzer.measure m g results').nodes d := by
  rw [ClassLevel.metrics, ClassLevel.metrics, measurable.weighted_methods results first,
    measurable.weighted_methods results' second]

end CodeModel.Measurable

namespace Engine

/-- A filter has no part in the order. -/
theorem order_filter (e : Engine) (g : Filter) :
    { e with filter := g }.order = ({ e.order.1 with filter := g }, e.order.2) := by
  unfold order
  split
  · rfl
  cases missing? e.instruments with
  | some fault => rfl
  | none =>
    rcases place e.instruments.length [] e.instruments with ⟨placed, - | ⟨i, rest⟩⟩ <;> rfl

namespace Run

variable (r r' : Run) (e : EntityId)

def foundAt (r : Run) (e : EntityId) : List (String × MetricMap) :=
  r.perNode.map fun i => (i.id, i.nodes.of e)

structure SameAt (r r' : Run) (e : EntityId) : Prop where
  nodes : r.nodes e = r'.nodes e
  nodesOf : ∀ id, r.nodesOf id e = r'.nodesOf id e

structure Blank (r : Run) (e : EntityId) : Prop where
  nodes : r.nodes e = []
  nodesOf : ∀ id, r.nodesOf id e = []

theorem nodes_of_found_at : r.nodes e = ((r.foundAt e).map (·.2)).foldl SortedMap.union [] := by
  rw [nodes_eq, foundAt, List.map_map]
  rfl

theorem nodesOf_of_found_at (id : String) :
    r.nodesOf id e = (List.lookup id (r.foundAt e)).getD [] := by
  unfold nodesOf foundAt
  generalize r.perNode = l
  induction l with
  | nil => rfl
  | cons i l ih =>
    rw [List.find?_cons, List.map_cons, List.lookup_cons]
    by_cases here : i.id = id
    · simp [here]
    · have other : (id == i.id) = false := by simpa using Ne.symm here
      simpa [here, other] using ih

variable {r r' e}

theorem same_at_of_found (same : r.foundAt e = r'.foundAt e) : r.SameAt r' e where
  nodes := by rw [nodes_of_found_at, nodes_of_found_at, same]
  nodesOf id := by rw [nodesOf_of_found_at, nodesOf_of_found_at, same]

theorem blank_of_found (none : ∀ row ∈ r.foundAt e, row.2 = []) : r.Blank e where
  nodes := by
    rw [nodes_of_found_at]
    generalize r.foundAt e = rows at none
    induction rows with
    | nil => rfl
    | cons row rows ih =>
      rw [List.map_cons, List.foldl_cons, none row List.mem_cons_self]
      exact ih fun row there => none row (List.mem_cons_of_mem _ there)
  nodesOf id := by
    rw [nodesOf_of_found_at]
    cases listed : List.lookup id (r.foundAt e) with
    | none => rfl
    | some metrics => exact none _ (mem_of_lookup listed)

namespace Complete

variable (complete : r.Complete m f) (complete' : r'.Complete m g) (measurable : m.Measurable)

include complete

theorem blank_of_measured {e : EntityId} (none : ∀ a ∈ Registry.builtin, ∀ results,
    (a.measure m f results).nodes.of e = []) : r.Blank e := by
  refine blank_of_found fun row listed => ?_
  obtain ⟨i, here, rfl⟩ := List.mem_map.mp listed
  rw [complete.per_node] at here
  obtain ⟨results, nodes⟩ := complete.nodes_of here
  dsimp only
  rw [nodes, none _ (complete.builtin here)]

include complete'

/-- Runs in one order agree on an entity if the instruments of each analyzer do. -/
theorem same_at (order : r.instruments.map (·.analyzer) = r'.instruments.map (·.analyzer))
    {e : EntityId} (each : ∀ i ∈ r.instruments, ∀ i' ∈ r'.instruments, i.analyzer = i'.analyzer →
      i.nodes.of e = i'.nodes.of e) : r.SameAt r' e := by
  refine same_at_of_found ?_
  rw [foundAt, foundAt, complete.per_node, complete'.per_node]
  refine map_eq_of_map_eq order fun i there i' there' same => ?_
  rw [each i there i' there' same, Instrument.id, same, Instrument.id]

include measurable

theorem type_nodes_agree (first : d ∈ f.acceptedTypes m) (second : d ∈ g.acceptedTypes m)
    {i i' : Instrument} (there : i ∈ r.instruments) (there' : i' ∈ r'.instruments)
    (same : i.analyzer = i'.analyzer) : i.nodes.of d.entity = i'.nodes.of d.entity := by
  have known := (Filter.mem_accepted_types.mp first).1
  rcases Registry.builtin_cases (complete.builtin there) with is | is | is | is
  · obtain ⟨results, given, nodes, complexity⟩ := complete.class_level_nodes there is
    obtain ⟨results', given', nodes', complexity'⟩ :=
      complete'.class_level_nodes there' (same.symm.trans is)
    rw [nodes, nodes']
    by_cases is_class : d.kind = .class_
    · rw [measurable.class_level_of results first is_class,
        measurable.class_level_of results' second is_class, complexity, complexity']
      exact measurable.class_metrics_agree first second given given'
    · rw [measurable.class_level_of_other results known is_class,
        measurable.class_level_of_other results' known is_class]
  all_goals
    obtain ⟨results, nodes⟩ := complete.nodes_of there
    obtain ⟨results', nodes'⟩ := complete'.nodes_of there'
    rw [nodes, nodes', ← same, is]
  · rw [measurable.complexity_of_type results known, measurable.complexity_of_type results' known]
  · rfl
  · rw [measurable.node_count_of results first, measurable.node_count_of results' second]

/-- Callables are measured by one analyzer, which reads nothing but their bodies. -/
theorem callable_nodes_agree (first : c ∈ f.acceptedCallables m) (second : c ∈ g.acceptedCallables m)
    {i i' : Instrument} (there : i ∈ r.instruments) (there' : i' ∈ r'.instruments)
    (same : i.analyzer = i'.analyzer) : i.nodes.of c.entity = i'.nodes.of c.entity := by
  rw [complete.callable_nodes measurable there first,
    complete'.callable_nodes measurable there' second, same]

end Complete

end Run

end Engine

/-- Runs of the same analyzers under two filters have one order. -/
theorem Analysis.order_of_run {analyzers : List Analyzer} {r r' : Engine.Run}
    (ran : ((fresh analyzers f).run m).2 = .ok r) (ran' : ((fresh analyzers g).run m).2 = .ok r') :
    r.instruments.map (·.analyzer) = r'.instruments.map (·.analyzer) := by
  have placed {f : Filter} {r : Engine.Run} (ran : ((fresh analyzers f).run m).2 = .ok r) :
      r.instruments.map (·.analyzer) =
        (fresh analyzers .all).order.1.instruments.map (·.analyzer) := by
    have order := Engine.order_filter (fresh analyzers .all) f
    have perm := Engine.order_perm (fresh analyzers .all)
    generalize (fresh analyzers .all).order = found at order perm
    obtain ⟨e, - | fault⟩ := found
    · have unmeasured : ∀ i ∈ e.instruments, i.findings = none := by
        intro i there
        obtain ⟨a, -, rfl⟩ := List.mem_map.mp (perm.mem_iff.mp there)
        rfl
      obtain ⟨measured, is⟩ := Engine.run_ok order m
      rw [show Engine.run { fresh analyzers .all with filter := f } m = (fresh analyzers f).run m
        from rfl, ran] at is
      obtain rfl := Except.ok.inj is
      exact Engine.outcome_analyzers unmeasured
    · have is := Engine.run_fault order m
      cases ran.symm.trans is
  rw [placed ran, placed ran']

namespace Engine.Run

/-- What a filter rejects has no metrics in its run. -/
structure Omits (m : CodeModel) (f : Filter) (r : Run) : Prop where
  types : ∀ d ∈ m.types, f.acceptsType m d = false → r.Blank d.entity
  callables : ∀ c ∈ m.callables, f.acceptsCallable m c = false → r.Blank c.entity

/-- What two filters accept has the same metrics in their runs. -/
structure Concur (m : CodeModel) (f g : Filter) (r r' : Run) : Prop where
  types : ∀ d ∈ m.types, f.acceptsType m d = true → g.acceptsType m d = true →
    r.SameAt r' d.entity
  methods : ∀ d ∈ m.types, f.acceptsType m d = true → g.acceptsType m d = true →
    ∀ c ∈ m.methodsOf d, r.SameAt r' c.entity
  functions : ∀ c ∈ m.callables, c.isMethod = false → f.acceptsCallable m c = true →
    g.acceptsCallable m c = true → r.SameAt r' c.entity

variable {r r' : Run}

theorem Complete.concur (complete : r.Complete m f) (complete' : r'.Complete m g)
    (measurable : m.Measurable)
    (order : r.instruments.map (·.analyzer) = r'.instruments.map (·.analyzer)) :
    Concur m f g r r' := by
  have callables {c : Callable} (first : c ∈ f.acceptedCallables m)
      (second : c ∈ g.acceptedCallables m) : r.SameAt r' c.entity :=
    complete.same_at complete' order fun i there i' there' =>
      complete.callable_nodes_agree complete' measurable first second there there'
  refine ⟨fun d known first second => ?_, fun d known first second c listed => ?_,
    fun c known plain first second => ?_⟩
  · exact complete.same_at complete' order fun i there i' there' =>
      complete.type_nodes_agree complete' measurable (Filter.mem_accepted_types.mpr ⟨known, first⟩)
        (Filter.mem_accepted_types.mpr ⟨known, second⟩) there there'
  · have accepted {f : Filter} (passed : f.acceptsType m d = true) : c ∈ f.acceptedCallables m :=
      List.mem_append_left _ (List.mem_flatMap.mpr
        ⟨d, Filter.mem_accepted_types.mpr ⟨known, passed⟩, listed⟩)
    exact callables (accepted first) (accepted second)
  · have accepted {f : Filter} (passed : f.acceptsCallable m c = true) :
        c ∈ f.acceptedCallables m :=
      List.mem_append_right _ (Filter.mem_accepted_functions.mpr ⟨known, plain, passed⟩)
    exact callables (accepted first) (accepted second)

end Engine.Run

namespace Assembly

/-- With all analyzers, registered in any order, runs over one model under two filters succeed. What
both filters accept has the same metrics in both, and what a filter rejects has none in its run. -/
theorem filters_concur (calls : List Added) (f g : Filter) {analyzers : List Analyzer}
    (all : analyzers.Perm Registry.builtin) :
    ∃ e e' r r', Analysis.engine analyzers f = .ok e ∧ Analysis.engine analyzers g = .ok e' ∧
      (e.run (finished calls)).2 = .ok r ∧ (e'.run (finished calls)).2 = .ok r' ∧
      Engine.Run.Concur (finished calls) f g r r' ∧
      Engine.Run.Omits (finished calls) f r ∧ Engine.Run.Omits (finished calls) g r' := by
  have apart : (analyzers.map (·.id)).Nodup := (all.map _).nodup_iff.mpr Registry.ids_apart
  have registered (f : Filter) := Analysis.engine_registers f apart fun a listed =>
    .inl (Registry.builtin_shaped a (all.mem_iff.mp listed)).1
  have omits {f : Filter} {r : Engine.Run} (complete : r.Complete (finished calls) f) :
      Engine.Run.Omits (finished calls) f r :=
    ⟨fun d there rejected => complete.blank_of_measured fun a listed results =>
        (measurable calls).no_nodes_of_rejected_type listed results there rejected,
      fun c there rejected => complete.blank_of_measured fun a listed results =>
        (measurable calls).no_nodes_of_rejected_callable (callable_kind_of_entity calls) listed
          results there rejected⟩
  obtain ⟨r, ran, complete⟩ := Analysis.complete_run all f (finished calls)
  obtain ⟨r', ran', complete'⟩ := Analysis.complete_run all g (finished calls)
  refine ⟨_, _, r, r', registered f, registered g, ran, ran', ?_, omits complete, omits complete'⟩
  exact complete.concur complete' (measurable calls) (Analysis.order_of_run ran ran')

def heirFile : Added := .source "heir.php"
  "<?php namespace A; class P {} namespace B; class C extends \\A\\P {}"

theorem heir_apart : ∃ d ∈ (finished [heirFile]).types, d.qualifiedName = "B\\C" ∧
    Filter.acceptsType .all (finished [heirFile]) d = true ∧
    Filter.acceptsType ⟨["A"], []⟩ (finished [heirFile]) d = true ∧
    ∃ p ∈ (finished [heirFile]).types, d.parent.any (·.name = p.qualifiedName) = true ∧
      Filter.acceptsType ⟨["A"], []⟩ (finished [heirFile]) p = false := by
  decide +kernel

/-- A class has the same metrics whether its parent is measured or not. -/
theorem filters_concur_on_heir : Registry.builtin.Perm Registry.builtin ∧
    ∃ d ∈ (finished [heirFile]).types, d.qualifiedName = "B\\C" ∧
      ∃ p ∈ (finished [heirFile]).types, d.parent.any (·.name = p.qualifiedName) = true ∧
        ∃ e e' r r', Analysis.engine Registry.builtin .all = .ok e ∧
          Analysis.engine Registry.builtin ⟨["A"], []⟩ = .ok e' ∧
          (e.run (finished [heirFile])).2 = .ok r ∧ (e'.run (finished [heirFile])).2 = .ok r' ∧
          r.SameAt r' d.entity ∧ r'.Blank p.entity := by
  obtain ⟨d, there, name, first, second, p, there', parent, rejected⟩ := heir_apart
  obtain ⟨e, e', r, r', engine, engine', ran, ran', concur, -, omits⟩ :=
    filters_concur [heirFile] .all ⟨["A"], []⟩ (.refl Registry.builtin)
  exact ⟨.refl _, d, there, name, p, there', parent, e, e', r, r', engine, engine', ran, ran',
    concur.types d there first second, omits.types p there' rejected⟩

end Assembly

end PhpAnalyser
