import PhpAnalyser.Proofs.Code.Finished
import PhpAnalyser.Proofs.Code.PackageNames
import PhpAnalyser.Proofs.Code.Survey
/-!
What measurements rely on: a finished model is in line with itself and with its files. What a filter
leaves of it are packages that list each type and each function that is accepted once, and nothing
else. It accepts a method just where it accepts its type.
-/
namespace PhpAnalyser

namespace CodeModel

variable {m : CodeModel} (g : Nat → Composition)

theorem Indexed.recomposed (indexed : m.Indexed) : (m.recomposed g).Indexed := by
  have types : (m.recomposed g).types.toList = m.types.toList.map (·.recomposed g) :=
    Array.toList_map
  have packed := indexed.packed
  have owned := indexed.owned
  refine { indexed with types_numbered := ?_, types_keyed := ?_, packed := ?_, owned := ?_ }
  · intro i t found
    have found' : (m.recomposed g).type? i = some t := found
    rw [recomposed_type] at found'
    obtain ⟨d, there, rfl⟩ := Option.map_eq_some_iff.mp found'
    exact indexed.types_numbered i d there
  · rw [types, List.map_map]
    exact indexed.types_keyed
  · rw [types]
    refine { packed with lists_types := ?_, types_housed := ?_ }
    · intro p there
      rw [List.filter_map, List.map_map]
      exact packed.lists_types p there
    · intro t listed
      obtain ⟨d, there, rfl⟩ := List.mem_map.mp listed
      exact packed.types_housed d there
  · rw [types]
    constructor
    · intro t listed
      obtain ⟨d, there, rfl⟩ := List.mem_map.mp listed
      exact owned.lists_methods d there
    · intro t listed
      obtain ⟨d, there, rfl⟩ := List.mem_map.mp listed
      exact owned.lists_properties d there
    · intro t listed
      obtain ⟨d, there, rfl⟩ := List.mem_map.mp listed
      exact owned.member_methods d there
    · intro t listed
      obtain ⟨d, there, rfl⟩ := List.mem_map.mp listed
      exact owned.member_properties d there
    · rw [List.length_map]
      exact owned.methods_owned
    · rw [List.length_map]
      exact owned.properties_owned

theorem recomposed_outlines (files : FileTable) :
    (m.recomposed g).typeOutlines files = m.typeOutlines files ∧
      (m.recomposed g).functionOutlines files = m.functionOutlines files := by
  have types : (m.recomposed g).types.toList = m.types.toList.map (·.recomposed g) :=
    Array.toList_map
  constructor
  · rw [typeOutlines, types, List.map_map]
    rfl
  · refine List.map_congr_left fun c listed => ?_
    have function : c.isMethod = false := by simpa using (List.mem_filter.mp listed).2
    rw [functionOutline, functionOutline, Filter.packageOf, Filter.packageOf]
    cases kind : c.kind with
    | function p => rfl
    | method owner => simp [Callable.isMethod, Callable.owner, kind] at function

end CodeModel

structure CodeModel.Measurable (m : CodeModel) : Prop where
  indexed : m.Indexed
  packages_rootless : ∀ p ∈ m.packages, Rootless p.name
  types_filed : ∀ d ∈ m.types, ∃ f, m.file? d.file = some f
  callables_filed : ∀ c ∈ m.callables, ∃ f, m.file? c.file = some f
  -- a node is that of one type, and a body is that of one node
  type_entity : ∀ d ∈ m.types, ∀ e ∈ m.types, d.entity = e.entity → d = e
  callable_entity : ∀ c ∈ m.callables, ∀ e ∈ m.callables, c.entity = e.entity → c.body = e.body
  entities_apart : ∀ d ∈ m.types, ∀ c ∈ m.callables, d.entity ≠ c.entity
  methods_file : ∀ d ∈ m.types, ∀ c ∈ m.methodsOf d, c.file = d.file
  parents_open : ∀ d ∈ m.types, ∀ r ∈ d.parent, r.known = none

namespace Kept

variable {calls : List Added} {a : Assembly}

theorem type_entity (kept : Kept calls a) {d e : TypeDecl} (first : d ∈ a.model.types)
    (second : e ∈ a.model.types) (same : d.entity = e.entity) : d = e := by
  obtain ⟨file, node⟩ := EntityId.node.inj same
  obtain ⟨f, there, found, source⟩ := kept.file_of_type first
  obtain ⟨f', there', found', source'⟩ := kept.file_of_type second
  rw [file, found'] at found
  cases found
  have noted := source.noted
  rw [node, source'.noted] at noted
  have ids : e.id = d.id := by
    rw [Option.some.injEq, MetaValue.int.injEq] at noted
    exact Int.ofNat.inj noted
  exact (kept.indexed.types_numbered.inj second first ids).symm

/-- The body of a callable is that of its node, which is no node of a type. -/
theorem body_of (kept : Kept calls a) {c : Callable} (member : c ∈ a.model.callables) :
    ∃ f, a.model.file? c.file = some f ∧ c.body = f.tree.bodyOf c.node ∧
      Registration.head? (f.tree.kind c.node) = none := by
  obtain ⟨f, there, same⟩ := kept.callables_filed c member
  have file := kept.files f there
  have here := same.symm.trans file.file.symm
  refine ⟨f, same ▸ kept.file_found there, ?_⟩
  cases kind : c.kind with
  | function p =>
    have at_ := (file.sourced.functions c member here p kind).at_
    obtain ⟨byRef, is⟩ := at_.head
    exact ⟨at_.body, by rw [is]; rfl⟩
  | method owner =>
    obtain ⟨d, -, -, -, at_⟩ := file.sourced.methods c member here owner kind
    obtain ⟨byRef, is⟩ := at_.head
    exact ⟨at_.body, by rw [is]; rfl⟩

theorem entities_apart (kept : Kept calls a) {d : TypeDecl} (there : d ∈ a.model.types)
    {c : Callable} (member : c ∈ a.model.callables) : d.entity ≠ c.entity := by
  intro same
  obtain ⟨file, node⟩ := EntityId.node.inj same
  obtain ⟨f, -, found, source⟩ := kept.file_of_type there
  obtain ⟨f', found', -, no_head⟩ := kept.body_of member
  rw [← file, found] at found'
  cases found'
  obtain ⟨head, is, -⟩ := source.at_.head
  rw [← node, is] at no_head
  cases no_head

theorem method_file (kept : Kept calls a) {d : TypeDecl} (there : d ∈ a.model.types) {c : Callable}
    (listed : c ∈ a.model.methodsOf d) : c.file = d.file := by
  rw [kept.indexed.methods_of there] at listed
  obtain ⟨member, kind⟩ := List.mem_filter.mp listed
  rw [Array.mem_toList_iff] at member
  obtain ⟨f, known, same⟩ := kept.callables_filed c member
  have file := kept.files f known
  obtain ⟨e, there', id, here, -⟩ := file.sourced.methods c member (same.symm.trans file.file.symm)
    d.id (of_decide_eq_true kind)
  obtain rfl := kept.indexed.types_numbered.inj there' there id
  rw [here, file.file, same]

theorem parent_open (kept : Kept calls a) {d : TypeDecl} (there : d ∈ a.model.types)
    {r : TypeReference} (named : r ∈ d.parent) : r.known = none := by
  obtain ⟨f, -, -, source⟩ := kept.file_of_type there
  obtain ⟨head, is, -⟩ := source.at_.head
  rw [(source.at_.clauses head is).2.1] at named
  obtain ⟨name, -, rfl⟩ := Option.map_eq_some_iff.mp named
  rfl

end Kept

namespace Assembly

theorem measurable (calls : List Added) : (finished calls).Measurable := by
  have kept := kept_after calls
  have of_type {P : TypeDecl → Prop} (each : ∀ r ∈ (registered calls).types,
      P (r.recomposed (compositions calls))) : ∀ d ∈ (finished calls).types, P d := by
    intro d member
    obtain ⟨r, there, rfl⟩ := mem_finished member
    exact each r there
  constructor
  case indexed => exact kept.indexed.recomposed _
  case packages_rootless => exact packages_rootless calls
  case types_filed =>
    refine of_type fun r there => ?_
    obtain ⟨f, -, found, -⟩ := kept.file_of_type there
    exact ⟨f, found⟩
  case callables_filed =>
    intro c member
    obtain ⟨f, found, -⟩ := kept.body_of member
    exact ⟨f, found⟩
  case type_entity =>
    refine of_type fun r there => of_type fun r' there' same => ?_
    rw [kept.type_entity there there' same]
  case callable_entity =>
    intro c member e member' same
    obtain ⟨file, node⟩ := EntityId.node.inj same
    obtain ⟨f, found, body, -⟩ := kept.body_of member
    obtain ⟨f', found', body', -⟩ := kept.body_of member'
    rw [file, found'] at found
    cases found
    rw [body, body', node]
  case entities_apart => exact of_type fun r there c member => kept.entities_apart there member
  case methods_file => exact of_type fun r there c listed => kept.method_file there listed
  case parents_open => exact of_type fun r there name named => kept.parent_open there named

end Assembly

/-- A list split by keys, each of which is taken once. -/
theorem partition_perm {α κ : Type} [DecidableEq κ] (key : α → κ) {keys : List κ}
    (once : keys.Nodup) {xs : List α} (each : ∀ x ∈ xs, key x ∈ keys) :
    (keys.flatMap fun k => xs.filter (key · = k)).Perm xs := by
  induction keys generalizing xs with
  | nil =>
    cases xs with
    | nil => exact .refl _
    | cons x xs => cases each x List.mem_cons_self
  | cons k keys ih =>
    obtain ⟨fresh, once⟩ := List.nodup_cons.mp once
    have others : ∀ k' ∈ keys, xs.filter (key · = k') =
        (xs.filter fun x => !decide (key x = k)).filter (key · = k') := by
      intro k' listed
      rw [List.filter_filter]
      refine List.filter_congr fun x _ => ?_
      have apart : k' ≠ k := fun same => fresh (same ▸ listed)
      by_cases here : key x = k'
      · simp [here, apart]
      · simp [here]
    have rest : (keys.flatMap fun k' => xs.filter (key · = k')).Perm
        (xs.filter fun x => !decide (key x = k)) := by
      rw [List.flatMap_congr others]
      refine ih once fun x listed => ?_
      obtain ⟨member, other⟩ := List.mem_filter.mp listed
      exact (List.mem_cons.mp (each x member)).resolve_left (by simpa using other)
    rw [List.flatMap_cons]
    exact (rest.append_left _).trans (List.filter_append_perm _ xs)

namespace CodeModel.Indexed

variable {m : CodeModel} {p : Package}

theorem types_of (indexed : m.Indexed) (there : p ∈ m.packages) :
    m.typesOf p = m.types.toList.filter (·.package = p.id) := by
  rw [typesOf, indexed.packed.lists_types p there]
  apply indexed.types_numbered.find_each
  exact fun t listed => Array.mem_toList_iff.mp (List.mem_filter.mp listed).1

theorem functions_of (indexed : m.Indexed) (there : p ∈ m.packages) :
    m.functionsOf p = m.callables.toList.filter (·.kind = .function p.id) := by
  rw [functionsOf, indexed.packed.lists_functions p there]
  apply indexed.callables_numbered.find_each
  exact fun c listed => Array.mem_toList_iff.mp (List.mem_filter.mp listed).1

/-- No two types have one name. -/
theorem type_names_once (indexed : m.Indexed) : (m.types.toList.map (·.qualifiedName)).Nodup := by
  have apart := indexed.types_keyed.apart
  rw [indexed.types_keyed.rows, List.map_map, List.map_map] at apart
  exact List.Nodup.of_map symbolKey (by rwa [List.map_map])

theorem function_names_once (indexed : m.Indexed) :
    ((m.callables.toList.filter (!·.isMethod)).map (·.qualifiedName)).Nodup := by
  have apart := indexed.functions_keyed.apart
  rw [indexed.functions_keyed.rows, List.map_map, List.map_map] at apart
  exact List.Nodup.of_map symbolKey (by rwa [List.map_map])

theorem eq_of_type_name (indexed : m.Indexed) {d e : TypeDecl} (first : d ∈ m.types)
    (second : e ∈ m.types) (same : d.qualifiedName = e.qualifiedName) : d = e :=
  List.inj_on_of_nodup_map indexed.type_names_once (Array.mem_toList_iff.mpr first)
    (Array.mem_toList_iff.mpr second) same

theorem eq_of_function_name (indexed : m.Indexed) {c e : Callable} (first : c ∈ m.callables)
    (second : e ∈ m.callables) (plain : c.isMethod = false) (plain' : e.isMethod = false)
    (same : c.qualifiedName = e.qualifiedName) : c = e := by
  have function {c : Callable} (there : c ∈ m.callables) (plain : c.isMethod = false) :
      c ∈ m.callables.toList.filter (!·.isMethod) :=
    List.mem_filter.mpr ⟨Array.mem_toList_iff.mpr there, by rw [plain]; rfl⟩
  exact List.inj_on_of_nodup_map indexed.function_names_once (function first plain)
    (function second plain') same

end CodeModel.Indexed

namespace Filter

variable (f : Filter) (m : CodeModel)

def acceptedTypes : List TypeDecl := m.types.toList.filter (f.acceptsType m)

def acceptedFunctions : List Callable :=
  m.callables.toList.filter fun c => !c.isMethod && f.acceptsCallable m c

def acceptedCallables : List Callable :=
  (f.acceptedTypes m).flatMap m.methodsOf ++ f.acceptedFunctions m

variable {f m}

theorem mem_accepted_types {d : TypeDecl} :
    d ∈ f.acceptedTypes m ↔ d ∈ m.types ∧ f.acceptsType m d = true := by
  rw [acceptedTypes, List.mem_filter, Array.mem_toList_iff]

theorem mem_accepted_functions {c : Callable} : c ∈ f.acceptedFunctions m ↔
    c ∈ m.callables ∧ c.isMethod = false ∧ f.acceptsCallable m c = true := by
  rw [acceptedFunctions, List.mem_filter, Array.mem_toList_iff, Bool.and_eq_true, Bool.not_eq_true']

theorem accepted_functions_sublist :
    (f.acceptedFunctions m).Sublist (m.callables.toList.filter (!·.isMethod)) := by
  have twice : f.acceptedFunctions m =
      (m.callables.toList.filter (!·.isMethod)).filter (f.acceptsCallable m) := by
    rw [acceptedFunctions, List.filter_filter]
    exact List.filter_congr fun c _ => Bool.and_comm _ _
  rw [twice]
  exact List.filter_sublist

section Partition

variable (indexed : m.Indexed)

include indexed

/-- A package whose content is accepted is itself accepted. -/
theorem package_accepted {k : Nat} (inside : k < m.packages.size)
    (accepted : f.acceptsPackageId m k = true) : k ∈ (f.packagesOf m).map (·.id) := by
  have found : m.packages[k]? = some m.packages[k] := Array.getElem?_eq_getElem inside
  have there : m.packages[k] ∈ m.packages := Array.getElem_mem inside
  rw [acceptsPackageId, CodeModel.package?, found, Option.all_some] at accepted
  exact List.mem_map.mpr ⟨m.packages[k],
    List.mem_filter.mpr ⟨Array.mem_toList_iff.mpr there, accepted⟩,
    indexed.packed.numbered k _ found⟩

theorem packages_once : ((f.packagesOf m).map (·.id)).Nodup :=
  indexed.packed.numbered.nodup.sublist ((List.filter_sublist).map _)

theorem accepted_types_perm :
    ((f.packagesOf m).flatMap (f.typesOf m)).Perm (f.acceptedTypes m) := by
  have split : (f.packagesOf m).flatMap (f.typesOf m) =
      ((f.packagesOf m).map (·.id)).flatMap fun k =>
        (f.acceptedTypes m).filter (·.package = k) := by
    rw [List.flatMap_map]
    refine List.flatMap_congr fun p listed => ?_
    have there := Array.mem_toList_iff.mp (List.mem_filter.mp listed).1
    rw [typesOf, indexed.types_of there, acceptedTypes, List.filter_comm]
  rw [split]
  refine partition_perm _ (packages_once indexed) fun d listed => ?_
  obtain ⟨there, accepted⟩ := mem_accepted_types.mp listed
  have housed := indexed.packed.types_housed d (Array.mem_toList_iff.mpr there)
  exact package_accepted indexed housed (Bool.and_eq_true_iff.mp accepted).1

theorem accepted_functions_perm :
    ((f.packagesOf m).flatMap (f.functionsOf m)).Perm (f.acceptedFunctions m) := by
  have split : (f.packagesOf m).flatMap (f.functionsOf m) =
      (((f.packagesOf m).map (·.id)).map CallableKind.function).flatMap fun k =>
        (f.acceptedFunctions m).filter (·.kind = k) := by
    rw [List.flatMap_map, List.flatMap_map]
    refine List.flatMap_congr fun p listed => ?_
    have there := Array.mem_toList_iff.mp (List.mem_filter.mp listed).1
    rw [functionsOf, indexed.functions_of there, acceptedFunctions, List.filter_filter,
      List.filter_filter]
    refine List.filter_congr fun c _ => ?_
    by_cases here : c.kind = .function p.id
    · simp [here, is_method_of_function here]
    · simp [here]
  have once : (((f.packagesOf m).map (·.id)).map CallableKind.function).Nodup :=
    (packages_once indexed).map fun _ _ same => CallableKind.function.inj same
  rw [split]
  refine partition_perm _ once fun c listed => ?_
  obtain ⟨there, plain, accepted⟩ := mem_accepted_functions.mp listed
  cases kind : c.kind with
  | method owner =>
    rw [is_method_of_method kind] at plain
    cases plain
  | function p =>
    have housed := indexed.packed.functions_housed c (Array.mem_toList_iff.mpr there) p kind
    have package := (Bool.and_eq_true_iff.mp accepted).1
    rw [packageOf, kind, Option.all_some] at package
    exact List.mem_map.mpr ⟨p, package_accepted indexed housed package, rfl⟩

/-- The callables that the packages offer to a count. -/
theorem accepted_callables_perm :
    ((f.packagesOf m).flatMap (Complexity.callablesOf m f)).Perm (f.acceptedCallables m) := by
  have split := List.flatMap_append_perm (f.packagesOf m)
    (fun p => (f.typesOf m p).flatMap m.methodsOf) (f.functionsOf m)
  refine split.symm.trans (.append ?_ (accepted_functions_perm indexed))
  rw [← List.flatMap_assoc]
  exact (accepted_types_perm indexed).flatMap_right _

end Partition

end Filter

namespace CodeModel.Measurable

variable {m : CodeModel} {f : Filter} {d : TypeDecl} {c : Callable} (measurable : m.Measurable)
include measurable

theorem mem_methods (there : d ∈ m.types) :
    c ∈ m.methodsOf d ↔ c ∈ m.callables ∧ c.kind = .method d.id := by
  rw [measurable.indexed.methods_of there, List.mem_filter, Array.mem_toList_iff, decide_eq_true_eq]

/-- A method is listed by the type that owns it. -/
theorem owner_of_method (member : c ∈ m.callables) {owner : Nat} (kind : c.kind = .method owner) :
    ∃ d ∈ m.types, d.id = owner ∧ c ∈ m.methodsOf d := by
  have inside : owner < m.types.size := by
    have owned := measurable.indexed.owned.methods_owned c (Array.mem_toList_iff.mpr member)
    simpa using owned owner kind
  have there : m.types[owner] ∈ m.types := Array.getElem_mem inside
  have id := measurable.indexed.types_numbered owner _ (Array.getElem?_eq_getElem inside)
  exact ⟨_, there, id, (measurable.mem_methods there).mpr ⟨member, by rw [id, kind]⟩⟩

/-- A filter that accepts a type accepts its methods, and no methods of other types. -/
theorem accepts_method (there : d ∈ m.types) (listed : c ∈ m.methodsOf d) :
    f.acceptsCallable m c = f.acceptsType m d := by
  have owner := ((measurable.mem_methods there).mp listed).2
  have known : m.type? d.id = some d := measurable.indexed.types_numbered.get there
  have package : Filter.packageOf m c = some d.package := by
    rw [Filter.packageOf, owner]
    simp only [known, Option.map_some]
  rw [Filter.acceptsCallable, package, measurable.methods_file d there c listed, Option.all_some,
    Filter.acceptsType]

theorem accepted_methods_perm : ((f.acceptedTypes m).flatMap m.methodsOf).Perm
    (m.callables.toList.filter fun c => c.isMethod && f.acceptsCallable m c) := by
  have split : (f.acceptedTypes m).flatMap m.methodsOf =
      ((f.acceptedTypes m).map fun d => CallableKind.method d.id).flatMap fun k =>
        (m.callables.toList.filter fun c => c.isMethod && f.acceptsCallable m c).filter
          (·.kind = k) := by
    rw [List.flatMap_map]
    refine List.flatMap_congr fun d listed => ?_
    obtain ⟨there, passed⟩ := Filter.mem_accepted_types.mp listed
    rw [measurable.indexed.methods_of there, List.filter_filter]
    refine List.filter_congr fun c member => ?_
    by_cases own : c.kind = .method d.id
    · have listed := (measurable.mem_methods there).mpr ⟨Array.mem_toList_iff.mp member, own⟩
      simp [own, is_method_of_method own, measurable.accepts_method there listed, passed]
    · simp [own]
  have once : ((f.acceptedTypes m).map fun d => CallableKind.method d.id).Nodup := by
    have ids : ((f.acceptedTypes m).map (·.id)).Nodup :=
      measurable.indexed.types_numbered.nodup.sublist (List.filter_sublist.map _)
    have kinds := ids.map fun _ _ same => CallableKind.method.inj same
    rwa [List.map_map] at kinds
  rw [split]
  refine partition_perm _ once fun c listed => ?_
  obtain ⟨member, passed⟩ := List.mem_filter.mp listed
  obtain ⟨is_method, passed⟩ := Bool.and_eq_true_iff.mp passed
  cases kind : c.kind with
  | function p =>
    rw [is_method_of_function kind] at is_method
    cases is_method
  | method owner =>
    obtain ⟨d, there, rfl, listed⟩ :=
      measurable.owner_of_method (Array.mem_toList_iff.mp member) kind
    rw [measurable.accepts_method there listed] at passed
    exact List.mem_map.mpr ⟨d, Filter.mem_accepted_types.mpr ⟨there, passed⟩, rfl⟩

/-- The methods of the accepted types and the accepted functions are all callables that are
accepted, each of them once. -/
theorem accepted_perm :
    (f.acceptedCallables m).Perm (m.callables.toList.filter (f.acceptsCallable m)) := by
  have apart := List.filter_append_perm (·.isMethod)
    (m.callables.toList.filter (f.acceptsCallable m))
  rw [List.filter_filter, List.filter_filter] at apart
  exact (measurable.accepted_methods_perm.append_right _).trans apart

end CodeModel.Measurable

end PhpAnalyser
