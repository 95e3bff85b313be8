import PhpAnalyser.Proofs.Measure.Alike
import PhpAnalyser.Proofs.Measure.Complete
/-!
Measurements of models that are alike: the same is found of the project, and of whatever is the
same in both.
-/
namespace PhpAnalyser

structure CallableTwins (m m' : CodeModel) (f : Filter) (c c' : Callable) : Prop where
  first : c ∈ f.acceptedCallables m
  second : c' ∈ f.acceptedCallables m'
  outline : c.outline m.file? = c'.outline m'.file?

structure NodeMetrics.Agree (m m' : CodeModel) (f : Filter) (table table' : NodeMetrics) :
    Prop where
  types : ∀ d d', Twins m m' d d' → d ∈ f.acceptedTypes m → table.of d.entity = table'.of d'.entity
  callables : ∀ c c', CallableTwins m m' f c c' → table.of c.entity = table'.of c'.entity

variable {m m' : CodeModel} {f : Filter} {d d' : TypeDecl} {c c' : Callable}

theorem NodeMetrics.Agree.nothing : NodeMetrics.Agree m m' f [] [] :=
  ⟨fun _ _ _ _ => rfl, fun _ _ _ => rfl⟩

theorem CallableTwins.complexity (twins : CallableTwins m m' f c c') :
    m.complexity c = m'.complexity c' := by
  have same : FileTable.complexity m.file? c.file c.body =
      FileTable.complexity m'.file? c'.file c'.body :=
    congrArg CallableOutline.complexity twins.outline
  rw [CodeModel.complexity, CodeModel.complexity, same]

namespace CodeModel.Measurable

variable (measurable : m.Measurable)

include measurable

theorem methods_length (there : d ∈ m.types) : d.methods.length = (m.outline d).methods.length := by
  have listed := measurable.indexed.owned.lists_methods d (Array.mem_toList_iff.mpr there)
  have outlined : (m.outline d).methods = (m.methodsOf d).map (·.outline m.file?) := rfl
  rw [outlined, List.length_map, measurable.indexed.methods_of there, listed, List.length_map]

theorem properties_length (there : d ∈ m.types) :
    d.properties.length = (m.outline d).properties.length := by
  have listed := measurable.indexed.owned.lists_properties d (Array.mem_toList_iff.mpr there)
  have outlined : (m.outline d).properties = (m.propertiesOf d).map Property.outline := rfl
  rw [outlined, List.length_map, measurable.indexed.properties_of there, listed, List.length_map]

theorem space_of_package {p : Package} (there : p ∈ m.packages) :
    m.spaceOf p.id = symbolKey p.name := by
  have found : m.package? p.id = some p := measurable.indexed.packed.numbered.get there
  rw [spaceOf, found]
  rfl

/-- Something is declared in every package. -/
theorem declared_in {p : Package} (there : p ∈ m.packages) :
    (∃ o ∈ m.typeOutlines m.file?, o.space = symbolKey p.name) ∨
      ∃ o ∈ m.functionOutlines m.file?, o.space = symbolKey p.name := by
  have packed := measurable.indexed.packed
  rw [← measurable.space_of_package there]
  rcases measurable.indexed.peopled p there with some_type | some_function
  · obtain ⟨id, member⟩ := List.exists_mem_of_ne_nil _ some_type
    rw [packed.lists_types p there] at member
    obtain ⟨d, named, -⟩ := List.mem_map.mp member
    obtain ⟨inside, package⟩ := List.mem_filter.mp named
    refine .inl ⟨m.outline d, List.mem_map_of_mem inside, ?_⟩
    rw [← of_decide_eq_true package]
    rfl
  · obtain ⟨id, member⟩ := List.exists_mem_of_ne_nil _ some_function
    rw [packed.lists_functions p there] at member
    obtain ⟨c, named, -⟩ := List.mem_map.mp member
    obtain ⟨inside, kind⟩ := List.mem_filter.mp named
    have function := of_decide_eq_true kind
    have plain := is_method_of_function function
    refine .inr ⟨m.functionShown c, List.mem_map_of_mem
      (List.mem_filter.mpr ⟨inside, by simp [plain]⟩), ?_⟩
    rw [functionShown, functionOutline, Filter.packageOf, function]
    rfl

/-- What is declared is declared in a package. -/
theorem package_of_key {key : String} (declared : (∃ o ∈ m.typeOutlines m.file?, o.space = key) ∨
    ∃ o ∈ m.functionOutlines m.file?, o.space = key) :
    ∃ p ∈ m.packages, symbolKey p.name = key := by
  have packed := measurable.indexed.packed
  have package_at {k : Nat} (housed : k < m.packages.size) (space : m.spaceOf k = key) :
      ∃ p ∈ m.packages, symbolKey p.name = key := by
    have there : m.packages[k] ∈ m.packages := Array.getElem_mem housed
    have id : m.packages[k].id = k := packed.numbered k _ (Array.getElem?_eq_getElem housed)
    exact ⟨_, there, by rw [← measurable.space_of_package there, id, space]⟩
  rcases declared with ⟨o, shown, space⟩ | ⟨o, shown, space⟩
  · obtain ⟨d, inside, rfl⟩ := List.mem_map.mp shown
    exact package_at (packed.types_housed d inside) space
  · obtain ⟨c, inside, rfl⟩ := List.mem_map.mp shown
    obtain ⟨inside, plain⟩ := List.mem_filter.mp inside
    cases kind : c.kind with
    | method owner =>
      rw [is_method_of_method kind] at plain
      cases plain
    | function p =>
      rw [functionOutline, Filter.packageOf, kind] at space
      exact package_at (packed.functions_housed c inside p kind) space

/-- The packages that are left have the keys that something is declared under and that the filter
accepts. -/
theorem mem_package_keys (f : Filter) (key : String) :
    key ∈ (f.packagesOf m).map (fun p => symbolKey p.name) ↔
      ((∃ o ∈ m.typeOutlines m.file?, o.space = key) ∨
        ∃ o ∈ m.functionOutlines m.file?, o.space = key) ∧
      (!f.packages.any fun pattern => matchesPackage pattern key) = true := by
  constructor
  · intro listed
    obtain ⟨p, kept, rfl⟩ := List.mem_map.mp listed
    obtain ⟨there, accepted⟩ := List.mem_filter.mp kept
    rw [Array.mem_toList_iff] at there
    rw [measurable.accepts_package there] at accepted
    exact ⟨measurable.declared_in there, accepted⟩
  · rintro ⟨declared, accepted⟩
    obtain ⟨p, there, rfl⟩ := measurable.package_of_key declared
    rw [← measurable.accepts_package there] at accepted
    exact List.mem_map_of_mem (List.mem_filter.mpr ⟨Array.mem_toList_iff.mpr there, accepted⟩)

theorem package_keys_once (f : Filter) :
    ((f.packagesOf m).map fun p => symbolKey p.name).Nodup := by
  have apart := measurable.indexed.packed.keyed.apart
  rw [measurable.indexed.packed.keyed.rows, List.map_map, List.map_map] at apart
  exact apart.sublist (List.filter_sublist.map _)

/-- The fold that gathers parents takes each once. -/
theorem gathered_parents {all : List TypeDecl} (known : ∀ p ∈ all, p ∈ m.types) :
    let gathered := all.foldl (fun known p =>
      if known.any (·.entity = p.entity) then known else known ++ [p]) []
    gathered.Nodup ∧ ∀ p, p ∈ gathered ↔ p ∈ all := by
  induction all using List.reverseRecOn with
  | nil => simp
  | append_singleton all last ih =>
    obtain ⟨once, members⟩ := ih fun p listed => known p (List.mem_append_left _ listed)
    simp only [List.foldl_append, List.foldl_cons, List.foldl_nil]
    generalize all.foldl (fun known p =>
      if known.any (·.entity = p.entity) then known else known ++ [p]) [] = gathered at *
    have listed : gathered.any (·.entity = last.entity) = true ↔ last ∈ gathered := by
      rw [List.any_eq_true]
      constructor
      · rintro ⟨p, here, same⟩
        have there := known p (List.mem_append_left _ ((members p).mp here))
        rwa [← measurable.type_entity p there last (known last (by simp)) (of_decide_eq_true same)]
      · exact fun here => ⟨last, here, by simp⟩
    split
    next again =>
      refine ⟨once, fun p => ?_⟩
      rw [List.mem_append, List.mem_singleton, members]
      refine ⟨.inl, fun either => either.elim id fun same => ?_⟩
      exact same ▸ (members last).mp (listed.mp again)
    next new =>
      refine ⟨?_, fun p => ?_⟩
      · rw [List.nodup_append]
        refine ⟨once, List.nodup_singleton last, ?_⟩
        rintro p here q there rfl
        exact new (listed.mpr (List.mem_singleton.mp there ▸ here))
      · rw [List.mem_append, List.mem_append, members]

theorem parent_known (there : d ∈ m.types) {p : TypeDecl} (found : m.parentOf d = some p) :
    p ∈ m.types := by
  obtain ⟨r, named, resolved⟩ := Option.bind_eq_some_iff.mp found
  exact ((resolve_iff measurable.indexed (measurable.parents_open d there r named)).mp resolved).1

theorem parents_gathered (f : Filter) : (Hierarchy.parents m f).Nodup ∧
    ∀ p, p ∈ Hierarchy.parents m f ↔
      ∃ d ∈ f.acceptedTypes m, d.kind = .class_ ∧ m.parentOf d = some p := by
  have perm : (Hierarchy.classes m f).Perm ((f.acceptedTypes m).filter (·.kind = .class_)) :=
    measurable.classes_perm
  have source (p : TypeDecl) : p ∈ (Hierarchy.classes m f).filterMap m.parentOf ↔
      ∃ d ∈ f.acceptedTypes m, d.kind = .class_ ∧ m.parentOf d = some p := by
    rw [List.mem_filterMap]
    simp only [perm.mem_iff, List.mem_filter, decide_eq_true_eq, and_assoc]
  have known : ∀ p ∈ (Hierarchy.classes m f).filterMap m.parentOf, p ∈ m.types := by
    intro p listed
    obtain ⟨d, accepted, -, found⟩ := (source p).mp listed
    exact measurable.parent_known (Filter.mem_accepted_types.mp accepted).1 found
  obtain ⟨once, members⟩ := measurable.gathered_parents known
  exact ⟨once, fun p => (members p).trans (source p)⟩

theorem parents_shown_once (f : Filter) : ((Hierarchy.parents m f).map m.outline).Nodup := by
  obtain ⟨once, members⟩ := measurable.parents_gathered f
  have there {p : TypeDecl} (listed : p ∈ Hierarchy.parents m f) : p ∈ m.types.toList := by
    obtain ⟨d, accepted, -, found⟩ := (members p).mp listed
    exact Array.mem_toList_iff.mpr
      (measurable.parent_known (Filter.mem_accepted_types.mp accepted).1 found)
  refine once.map_on fun p here q also same => ?_
  exact List.inj_on_of_nodup_map measurable.indexed.type_names_once (there here) (there also)
    (congrArg TypeOutline.name same)

end CodeModel.Measurable

namespace CodeModel.Alike

variable (alike : m.Alike m')

include alike

theorem accepted (twins : Twins m m' d d') (listed : d ∈ f.acceptedTypes m) :
    d' ∈ f.acceptedTypes m' := by
  obtain ⟨there, accepted⟩ := Filter.mem_accepted_types.mp listed
  refine Filter.mem_accepted_types.mpr ⟨twins.second, ?_⟩
  rwa [alike.second.accepts_type twins.second, ← twins.outline, ← alike.first.accepts_type there]

theorem accepted_types (f : Filter) :
    ((f.acceptedTypes m).map m.outline).Perm ((f.acceptedTypes m').map m'.outline) := by
  rw [alike.first.accepted_type_outlines, alike.second.accepted_type_outlines]
  exact alike.types_perm.filter _

theorem accepted_functions (f : Filter) :
    ((f.acceptedFunctions m).map m.functionShown).Perm
      ((f.acceptedFunctions m').map m'.functionShown) := by
  rw [alike.first.accepted_function_outlines, alike.second.accepted_function_outlines]
  exact alike.functions_perm.filter _

theorem accepted_callables (f : Filter) :
    ((f.acceptedCallables m).map (·.outline m.file?)).Perm
      ((f.acceptedCallables m').map (·.outline m'.file?)) := by
  have shown (m : CodeModel) : (f.acceptedCallables m).map (·.outline m.file?) =
      ((f.acceptedTypes m).map m.outline).flatMap (·.methods) ++
        ((f.acceptedFunctions m).map m.functionShown).map (·.callable) := by
    rw [Filter.acceptedCallables, List.map_append, List.map_flatMap, List.flatMap_map, List.map_map]
    rfl
  rw [shown m, shown m']
  exact ((alike.accepted_types f).flatMap_right _).append ((alike.accepted_functions f).map _)

theorem method_twins (twins : Twins m m' d d') (listed : d ∈ f.acceptedTypes m)
    (here : c ∈ m.methodsOf d) (there : c' ∈ m'.methodsOf d')
    (same : c.outline m.file? = c'.outline m'.file?) : CallableTwins m m' f c c' where
  first := List.mem_append_left _ (List.mem_flatMap.mpr ⟨d, listed, here⟩)
  second := List.mem_append_left _ (List.mem_flatMap.mpr ⟨d', alike.accepted twins listed, there⟩)
  outline := same

/-- Metrics of the methods of a class, one by one. -/
theorem over_methods {γ : Type} (twins : Twins m m' d d') (listed : d ∈ f.acceptedTypes m)
    {measure measure' : Callable → γ}
    (each : ∀ c c', CallableTwins m m' f c c' → measure c = measure' c') :
    (m.methodsOf d).map measure = (m'.methodsOf d').map measure' :=
  map_eq_of_map_eq (congrArg TypeOutline.methods twins.outline) fun c here c' there same =>
    each c c' (alike.method_twins twins listed here there same)

theorem class_metrics (twins : Twins m m' d d') (listed : d ∈ f.acceptedTypes m)
    {table table' : NodeMetrics} (agree : NodeMetrics.Agree m m' f table table') :
    ClassLevel.metrics m table d = ClassLevel.metrics m' table' d' := by
  have methods : d.methods.length = d'.methods.length := by
    rw [alike.first.methods_length twins.first, alike.second.methods_length twins.second,
      twins.outline]
  have properties : d.properties.length = d'.properties.length := by
    rw [alike.first.properties_length twins.first, alike.second.properties_length twins.second,
      twins.outline]
  have interfaces : d.interfaces.length = d'.interfaces.length :=
    congrArg TypeOutline.interfaces twins.outline
  have public_methods : ((m.methodsOf d).filter (·.visibility = .public_)).length =
      ((m'.methodsOf d').filter (·.visibility = .public_)).length :=
    count_of_map_eq (congrArg TypeOutline.methods twins.outline) (·.visibility = .public_)
  have public_properties : ((m.propertiesOf d).filter (·.visibility = .public_)).length =
      ((m'.propertiesOf d').filter (·.visibility = .public_)).length :=
    count_of_map_eq (congrArg TypeOutline.properties twins.outline) (·.2 = .public_)
  have weight : ClassLevel.weightedMethods m table d = ClassLevel.weightedMethods m' table' d' := by
    have read (m : CodeModel) (table : NodeMetrics) (d : TypeDecl) :
        ClassLevel.weightedMethods m table d = .sum (((m.methodsOf d).map fun c =>
          SortedMap.find? (table.of c.entity) "ccn").filterMap id) := by
      rw [List.filterMap_map]
      rfl
    have each : (m.methodsOf d).map (fun c => SortedMap.find? (table.of c.entity) "ccn") =
        (m'.methodsOf d').map fun c => SortedMap.find? (table'.of c.entity) "ccn" :=
      alike.over_methods twins listed fun c c' twins => by rw [agree.callables c c' twins]
    rw [read, read, each]
  unfold ClassLevel.metrics
  dsimp only
  rw [methods, properties, interfaces, public_methods, public_properties, weight,
    alike.inheritance_depth twins, alike.property_names twins]

theorem complexity_counts (f : Filter) : Complexity.counts m f = Complexity.counts m' f := by
  have sums (count : Complexity → Nat) :
      ((f.acceptedCallables m).map fun c => count (m.complexity c)).sum =
        ((f.acceptedCallables m').map fun c => count (m'.complexity c)).sum := by
    have perm := (alike.accepted_callables f).map fun o => count (o.complexity.getD ⟨0, 0⟩)
    rw [List.map_map, List.map_map] at perm
    exact perm.sum_nat
  rw [Complexity.counts, Complexity.counts, sums (·.ccn), sums (·.ccn2)]

theorem count_types (f : Filter) (p : TypeOutline → Bool) :
    (f.acceptedTypes m).countP (fun d => p (m.outline d)) =
      (f.acceptedTypes m').countP fun d => p (m'.outline d) := by
  have counted := (alike.accepted_types f).countP_eq p
  rwa [List.countP_map, List.countP_map] at counted

theorem package_count (f : Filter) : (f.packagesOf m).length = (f.packagesOf m').length := by
  have perm : ((f.packagesOf m).map fun p => symbolKey p.name).Perm
      ((f.packagesOf m').map fun p => symbolKey p.name) := by
    refine (List.perm_ext_iff_of_nodup (alike.first.package_keys_once f)
      (alike.second.package_keys_once f)).mpr fun key => ?_
    have types (o : TypeOutline) : o ∈ m.typeOutlines m.file? ↔ o ∈ m'.typeOutlines m'.file? :=
      alike.types_perm.mem_iff
    have functions (o : FunctionOutline) :
        o ∈ m.functionOutlines m.file? ↔ o ∈ m'.functionOutlines m'.file? :=
      alike.functions_perm.mem_iff
    simp only [alike.first.mem_package_keys, alike.second.mem_package_keys, types, functions]
  simpa using perm.length_eq

theorem parents_within_second (f : Filter) {o : TypeOutline}
    (listed : o ∈ (Hierarchy.parents m f).map m.outline) :
    o ∈ (Hierarchy.parents m' f).map m'.outline := by
  obtain ⟨p, here, rfl⟩ := List.mem_map.mp listed
  obtain ⟨d, accepted, is_class, found⟩ := ((alike.first.parents_gathered f).2 p).mp here
  obtain ⟨d', twins⟩ := alike.twin (Filter.mem_accepted_types.mp accepted).1
  obtain ⟨p', found', parents⟩ := alike.parent twins found
  have is_class' : d'.kind = .class_ :=
    (congrArg TypeOutline.kind twins.outline).symm.trans is_class
  refine List.mem_map.mpr ⟨p', ?_, parents.outline.symm⟩
  exact ((alike.second.parents_gathered f).2 p').mpr
    ⟨d', alike.accepted twins accepted, is_class', found'⟩

theorem accepted_parents (f : Filter) : ((Hierarchy.parents m f).map m.outline).Perm
    ((Hierarchy.parents m' f).map m'.outline) :=
  (List.perm_ext_iff_of_nodup (alike.first.parents_shown_once f)
    (alike.second.parents_shown_once f)).mpr fun _ =>
      ⟨alike.parents_within_second f, alike.symm.parents_within_second f⟩

theorem hierarchy_counts (f : Filter) : Hierarchy.counts m f = Hierarchy.counts m' f := by
  have classes := alike.count_types f (·.kind = .class_)
  have abstract_ := alike.count_types f fun o => o.isAbstract && o.kind = .class_
  have parents := alike.accepted_parents f
  have roots := parents.countP_eq (·.parent.isNone)
  have number := parents.length_eq
  rw [List.countP_map, List.countP_map] at roots
  rw [List.length_map, List.length_map] at number
  have counted (m : CodeModel) : ((f.acceptedTypes m).filter (·.kind = .class_)).length =
      (f.acceptedTypes m).countP fun d => (m.outline d).kind = .class_ :=
    List.countP_eq_length_filter.symm
  have counted_abstract (m : CodeModel) :
      ((f.acceptedTypes m).filter (·.kind = .class_)).countP (·.isAbstract) =
        (f.acceptedTypes m).countP fun d =>
          (m.outline d).isAbstract && (m.outline d).kind = .class_ := by
    rw [List.countP_filter]
    rfl
  have counted_roots (m : CodeModel) : (Hierarchy.parents m f).countP (·.parent.isNone) =
      (Hierarchy.parents m f).countP ((fun o : TypeOutline => o.parent.isNone) ∘ m.outline) := rfl
  unfold Hierarchy.counts
  dsimp only
  rw [counted m, counted m', counted_abstract m, counted_abstract m', classes, abstract_,
    counted_roots m, counted_roots m', roots, number]

theorem node_counts (f : Filter) : NodeCount.counts m f = NodeCount.counts m' f := by
  have classes : (f.acceptedTypes m).countP (·.kind = .class_) =
      (f.acceptedTypes m').countP (·.kind = .class_) := alike.count_types f (·.kind = .class_)
  have interfaces : (f.acceptedTypes m).countP (·.kind = .interface_) =
      (f.acceptedTypes m').countP (·.kind = .interface_) :=
    alike.count_types f (·.kind = .interface_)
  have functions := (alike.accepted_functions f).length_eq
  rw [List.length_map, List.length_map] at functions
  have methods : ((f.acceptedTypes m).map (·.methods.length)).sum =
      ((f.acceptedTypes m').map (·.methods.length)).sum := by
    have outlined {m : CodeModel} (measurable : m.Measurable) :
        (f.acceptedTypes m).map (·.methods.length) =
          ((f.acceptedTypes m).map m.outline).map (·.methods.length) := by
      rw [List.map_map]
      exact List.map_congr_left fun d listed =>
        measurable.methods_length (Filter.mem_accepted_types.mp listed).1
    rw [outlined alike.first, outlined alike.second]
    exact ((alike.accepted_types f).map _).sum_nat
  rw [NodeCount.counts, NodeCount.counts, classes, interfaces, methods, functions,
    alike.package_count f]

theorem counts_of (f : Filter) (id : String) :
    Registry.countsOf m f id = Registry.countsOf m' f id := by
  rw [Registry.countsOf, Registry.countsOf, alike.complexity_counts, alike.hierarchy_counts,
    alike.node_counts]

section Analyzers

variable {results results' : Results}

theorem complexity_agrees : NodeMetrics.Agree m m' f
    (Complexity.analyzer.measure m f results).nodes
    (Complexity.analyzer.measure m' f results').nodes where
  types d d' twins _ := by
    rw [alike.first.complexity_of_type results twins.first,
      alike.second.complexity_of_type results' twins.second]
  callables c c' twins := by
    rw [alike.first.complexity_of results twins.first,
      alike.second.complexity_of results' twins.second, twins.complexity]

theorem class_level_agrees
    (given : ∀ id, NodeMetrics.Agree m m' f (results.of id) (results'.of id)) :
    NodeMetrics.Agree m m' f (ClassLevel.analyzer.measure m f results).nodes
      (ClassLevel.analyzer.measure m' f results').nodes where
  types d d' twins listed := by
    have listed' := alike.accepted twins listed
    have kind : d.kind = d'.kind := congrArg TypeOutline.kind twins.outline
    by_cases is_class : d.kind = .class_
    · rw [alike.first.class_level_of results listed is_class,
        alike.second.class_level_of results' listed' (kind ▸ is_class)]
      exact alike.class_metrics twins listed (given _)
    · rw [alike.first.class_level_of_other results twins.first is_class,
        alike.second.class_level_of_other results' twins.second (kind ▸ is_class)]
  callables c c' twins := by
    rw [alike.first.class_level_of_callable results (Filter.mem_accepted_callables twins.first),
      alike.second.class_level_of_callable results' (Filter.mem_accepted_callables twins.second)]

theorem node_count_agrees : NodeMetrics.Agree m m' f
    (NodeCount.analyzer.measure m f results).nodes
    (NodeCount.analyzer.measure m' f results').nodes where
  types d d' twins listed := by
    rw [alike.first.node_count_of results listed,
      alike.second.node_count_of results' (alike.accepted twins listed),
      alike.first.methods_length twins.first, alike.second.methods_length twins.second,
      twins.outline]
  callables c c' twins := by
    rw [alike.first.node_count_of_callable results (Filter.mem_accepted_callables twins.first),
      alike.second.node_count_of_callable results' (Filter.mem_accepted_callables twins.second)]

theorem nodes_agree {a : Analyzer} (listed : a ∈ Registry.builtin)
    (given : ∀ id, NodeMetrics.Agree m m' f (results.of id) (results'.of id)) :
    NodeMetrics.Agree m m' f (a.measure m f results).nodes (a.measure m' f results').nodes := by
  rcases Registry.builtin_cases listed with rfl | rfl | rfl | rfl
  · exact alike.class_level_agrees given
  · exact alike.complexity_agrees
  · exact .nothing
  · exact alike.node_count_agrees

theorem project_agrees {a : Analyzer} (listed : a ∈ Registry.builtin) :
    (a.measure m f results).project = (a.measure m' f results').project := by
  rw [Registry.project_eq alike.first listed, Registry.project_eq alike.second listed,
    alike.counts_of]

end Analyzers

end CodeModel.Alike

structure Instrument.Agree (m m' : CodeModel) (f : Filter) (i i' : Instrument) : Prop where
  analyzer : i.analyzer = i'.analyzer
  nodes : NodeMetrics.Agree m m' f i.nodes i'.nodes
  project : i.project = i'.project

namespace Engine

theorem given_agree {finished finished' : List Instrument}
    (agree : List.Forall₂ (Instrument.Agree m m' f) finished finished') (i : Instrument)
    (id : String) :
    NodeMetrics.Agree m m' f ((given finished i).of id) ((given finished' i).of id) := by
  induction agree with
  | nil => exact .nothing
  | @cons j j' rest rest' first _ ih =>
    have same : j'.id = j.id := congrArg Analyzer.id first.analyzer.symm
    unfold given at ih ⊢
    rw [List.filter_cons, List.filter_cons, same]
    split
    · have read (j : Instrument) (rest : List Instrument) :
          (Instrument.results (j :: rest)).of id =
            if id = j.id then j.nodes else (Instrument.results rest).of id := by
        rw [Instrument.results, List.map_cons, Results.of, List.lookup_cons]
        by_cases here : id = j.id
        · simp [here]
        · have other : (id == j.id) = false := by simpa using here
          simp [here, other, Results.of, Instrument.results]
      rw [read, read, same]
      split
      · exact first.nodes
      · exact ih
    · exact ih

/-- A run over models that are alike finds the same. -/
theorem outcome_agree (alike : m.Alike m') {l : List Instrument}
    (fresh : ∀ i ∈ l, i.findings = none) (listed : ∀ i ∈ l, i.analyzer ∈ Registry.builtin) :
    List.Forall₂ (Instrument.Agree m m' f) (outcome m f l) (outcome m' f l) := by
  induction l using List.reverseRecOn with
  | nil => exact .nil
  | append_singleton l i ih =>
    have before := ih (fun j member => fresh j (List.mem_append_left _ member))
      fun j member => listed j (List.mem_append_left _ member)
    have is_builtin := listed i (by simp)
    have filter : (i.withFilter f).filter = f := by
      rw [Instrument.withFilter, if_pos (Registry.builtin_shaped _ is_builtin).2]
    have given := given_agree before i
    rw [outcome_snoc l (fresh i (by simp)), outcome_snoc l (fresh i (by simp)), filter]
    refine List.rel_append before (.cons ⟨rfl, ?_, ?_⟩ .nil)
    · exact alike.nodes_agree is_builtin given
    · exact alike.project_agrees is_builtin

namespace Run

variable {r r' : Run} (agree : List.Forall₂ (Instrument.Agree m m' f) r.instruments r'.instruments)

include agree

theorem merged_agree (t : Renaming) : r.mergedProject t = r'.mergedProject t := by
  have project : r.project = r'.project := by
    unfold project
    generalize r.instruments = l, r'.instruments = l' at agree
    induction agree with
    | nil => rfl
    | @cons i i' _ _ first _ ih =>
      have id : i.id = i'.id := congrArg Analyzer.id first.analyzer
      rw [List.filter_cons, List.filter_cons, first.analyzer]
      split
      · rw [List.map_cons, List.map_cons, ih, id, first.project]
      · exact ih
  rw [mergedProject, mergedProject, project]

/-- The merged metrics agree wherever those of all instruments do. -/
theorem nodes_agree {e e' : EntityId} (same : ∀ table table' : NodeMetrics,
    NodeMetrics.Agree m m' f table table' → table.of e = table'.of e') :
    r.nodes e = r'.nodes e' := by
  have tables : r.perNode.map (·.nodes.of e) = r'.perNode.map (·.nodes.of e') := by
    unfold perNode
    generalize r.instruments = l, r'.instruments = l' at agree
    induction agree with
    | nil => rfl
    | @cons i i' _ _ first _ ih =>
      rw [List.filter_cons, List.filter_cons, first.analyzer]
      split
      · rw [List.map_cons, List.map_cons, ih, same _ _ first.nodes]
      · exact ih
  rw [nodes_eq, nodes_eq, tables]

theorem type_agrees (twins : Twins m m' d d') (listed : d ∈ f.acceptedTypes m) :
    r.nodes d.entity = r'.nodes d'.entity :=
  nodes_agree agree fun _ _ tables => tables.types d d' twins listed

theorem callable_agrees (twins : CallableTwins m m' f c c') :
    r.nodes c.entity = r'.nodes c'.entity :=
  nodes_agree agree fun _ _ tables => tables.callables c c' twins

end Run

end Engine

end PhpAnalyser
