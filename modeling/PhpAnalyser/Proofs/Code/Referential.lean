import PhpAnalyser.Proofs.Code.Calls
/-!
No id of a model leads nowhere, and nothing that a file declares is lost.
-/
namespace PhpAnalyser

def SourceFile.leftOut (f : SourceFile) (m : CodeModel) : List Nat :=
  ((f.tree.declarations "" f.tree.root).map (·.2)).filter (m.entitiesAt f.id · = 0)

/-- Ids are places, and what is stored as an id leads to an entry that knows of it. -/
structure CodeModel.Referential (m : CodeModel) : Prop where
  type_ids : ∀ i d, m.type? i = some d → d.id = i
  callable_ids : ∀ i c, m.callable? i = some c → c.id = i
  property_ids : ∀ i p, m.property? i = some p → p.id = i
  package_ids : ∀ i p, m.package? i = some p → p.id = i
  -- what packages and types list
  package_types : ∀ p ∈ m.packages, ∀ id ∈ p.types, ∃ d, m.type? id = some d ∧ d.package = p.id
  package_functions : ∀ p ∈ m.packages, ∀ id ∈ p.functions,
    ∃ c, m.callable? id = some c ∧ c.kind = .function p.id
  type_methods : ∀ d ∈ m.types, ∀ id ∈ d.methods,
    ∃ c, m.callable? id = some c ∧ c.kind = .method d.id
  type_properties : ∀ d ∈ m.types, ∀ id ∈ d.properties,
    ∃ p, m.property? id = some p ∧ p.owner = d.id
  type_members : ∀ d ∈ m.types, ∀ member ∈ d.members, (m.member? member).isSome
  -- what entries name, each listed there once and nowhere else
  type_package : ∀ d ∈ m.types, d.package < m.packages.size ∧
    ∀ p ∈ m.packages, p.types.count d.id = if p.id = d.package then 1 else 0
  function_package : ∀ c ∈ m.callables, ∀ k, c.kind = .function k → k < m.packages.size ∧
    ∀ p ∈ m.packages, p.functions.count c.id = if p.id = k then 1 else 0
  method_owner : ∀ c ∈ m.callables, ∀ k, c.kind = .method k → k < m.types.size ∧
    ∀ d ∈ m.types, d.methods.count c.id = (if d.id = k then 1 else 0) ∧
      d.members.count (.method c.id) = if d.id = k then 1 else 0
  property_owner : ∀ p ∈ m.properties, p.owner < m.types.size ∧
    ∀ d ∈ m.types, d.properties.count p.id = (if d.id = p.owner then 1 else 0) ∧
      d.members.count (.property p.id) = if d.id = p.owner then 1 else 0
  package_inhabited : ∀ p ∈ m.packages, p.types ≠ [] ∨ p.functions ≠ []
  -- names
  type_names : ∀ d ∈ m.types, m.symbols.type? d.qualifiedName = some d.id
  function_names : ∀ c ∈ m.callables, c.isMethod = false →
    m.symbols.function? c.qualifiedName = some c.id
  package_names : ∀ p ∈ m.packages, m.symbols.package? p.name = some p.id
  type_keys : ∀ d ∈ m.types, ∀ e ∈ m.types,
    symbolKey d.qualifiedName = symbolKey e.qualifiedName → d = e
  function_keys : ∀ c ∈ m.callables, ∀ e ∈ m.callables, c.isMethod = false → e.isMethod = false →
    symbolKey c.qualifiedName = symbolKey e.qualifiedName → c = e
  type_table : ∀ row ∈ m.symbols.types,
    ∃ d, m.type? row.2 = some d ∧ symbolKey d.qualifiedName = row.1
  function_table : ∀ row ∈ m.symbols.functions,
    ∃ c, m.callable? row.2 = some c ∧ c.isMethod = false ∧ symbolKey c.qualifiedName = row.1
  package_table : ∀ row ∈ m.symbols.packages,
    ∃ p, m.package? row.2 = some p ∧ symbolKey p.name = row.1
  -- files and nodes
  type_nodes : ∀ d ∈ m.types, ∃ f, m.file? d.file = some f ∧ d.node < f.tree.size ∧
    ∀ u ∈ d.uses, u.node < f.tree.size
  callable_nodes : ∀ c ∈ m.callables, ∃ f, m.file? c.file = some f ∧ c.node < f.tree.size ∧
    ∀ b ∈ c.body, b < f.tree.size
  property_nodes : ∀ p ∈ m.properties, ∃ d f, m.type? p.owner = some d ∧
    m.file? d.file = some f ∧ p.node < f.tree.size

/-- Each declaration that a file shows to the outside is the node of one entity, or there is one
warning about it; and a type knows its node, and its node the type. -/
structure Accounted (a : Assembly) (f : SourceFile) : Prop where
  each : ∀ space i, f.tree.Exposed space i → (f.tree.kind i).declares = true →
    a.model.entitiesAt f.id i + (f.leftOut a.model).count i = 1
  warned : a.diagnostics.filter (·.file = f.id) = (f.leftOut a.model).map f.tree.duplicateAt
  typed : ∀ i, (f.tree.kind i).isTypeDeclaration = true → a.model.entitiesAt f.id i ≠ 0 →
    ∃ d ∈ a.model.types, d.entity = .node f.id i ∧
      f.tree.metadata i "type_id" = some (.int d.id)

/-- In a list of the ids of some entries, each of these stands once. -/
theorem Numbered.count_listed {α : Type} {id : α → Nat} {entries : Array α}
    (numbered : Numbered id entries) (p : α → Bool) {x : α} (member : x ∈ entries) :
    ((entries.toList.filter p).map id).count (id x) = if p x then 1 else 0 := by
  have nodup : ((entries.toList.filter p).map id).Nodup :=
    numbered.nodup.sublist (List.filter_sublist.map id)
  rw [nodup.count]
  refine if_congr ⟨fun listed => ?_, fun kept => ?_⟩ rfl rfl
  · obtain ⟨y, there, same⟩ := List.mem_map.mp listed
    obtain ⟨there, kept⟩ := List.mem_filter.mp there
    rwa [numbered.inj (Array.mem_toList_iff.mp there) member same] at kept
  · exact List.mem_map.mpr ⟨x, List.mem_filter.mpr ⟨Array.mem_toList_iff.mpr member, kept⟩, rfl⟩

theorem Numbered.listed {α : Type} {id : α → Nat} {entries : Array α}
    (numbered : Numbered id entries) {p : α → Bool} {k : Nat}
    (listed : k ∈ (entries.toList.filter p).map id) : ∃ x, entries[k]? = some x ∧ p x = true := by
  obtain ⟨x, there, rfl⟩ := List.mem_map.mp listed
  obtain ⟨there, kept⟩ := List.mem_filter.mp there
  exact ⟨x, numbered.get (Array.mem_toList_iff.mp there), kept⟩

theorem count_method (members : List MemberId) (id : Nat) :
    members.count (.method id) = (members.filterMap MemberId.method?).count id := by
  induction members with
  | nil => rfl
  | cons member members ih =>
    cases member <;> simp [List.count_cons, List.filterMap_cons, MemberId.method?, ih]

theorem count_property (members : List MemberId) (id : Nat) :
    members.count (.property id) = (members.filterMap MemberId.property?).count id := by
  induction members with
  | nil => rfl
  | cons member members ih =>
    cases member <;> simp [List.count_cons, List.filterMap_cons, MemberId.property?, ih]

namespace CodeModel.Indexed

variable {m : CodeModel}

theorem package_of_type (indexed : m.Indexed) {d : TypeDecl} (member : d ∈ m.types) {p : Package}
    (there : p ∈ m.packages) : p.types.count d.id = if p.id = d.package then 1 else 0 := by
  rw [indexed.packed.lists_types p there, indexed.types_numbered.count_listed _ member]
  simp [eq_comm]

theorem package_of_function (indexed : m.Indexed) {c : Callable} (member : c ∈ m.callables)
    {k : Nat} (kind : c.kind = .function k) {p : Package} (there : p ∈ m.packages) :
    p.functions.count c.id = if p.id = k then 1 else 0 := by
  rw [indexed.packed.lists_functions p there, indexed.callables_numbered.count_listed _ member]
  simp [kind, eq_comm]

theorem owner_of_method (indexed : m.Indexed) {c : Callable} (member : c ∈ m.callables)
    {k : Nat} (kind : c.kind = .method k) {d : TypeDecl} (there : d ∈ m.types) :
    d.methods.count c.id = (if d.id = k then 1 else 0) ∧
      d.members.count (.method c.id) = if d.id = k then 1 else 0 := by
  rw [← Array.mem_toList_iff] at there
  rw [count_method, indexed.owned.member_methods d there, and_self,
    indexed.owned.lists_methods d there, indexed.callables_numbered.count_listed _ member]
  simp [kind, eq_comm]

theorem owner_of_property (indexed : m.Indexed) {p : Property} (member : p ∈ m.properties)
    {d : TypeDecl} (there : d ∈ m.types) :
    d.properties.count p.id = (if d.id = p.owner then 1 else 0) ∧
      d.members.count (.property p.id) = if d.id = p.owner then 1 else 0 := by
  rw [← Array.mem_toList_iff] at there
  rw [count_property, indexed.owned.member_properties d there, and_self,
    indexed.owned.lists_properties d there, indexed.properties_numbered.count_listed _ member]
  simp [eq_comm]

theorem function_of_listed (indexed : m.Indexed) {p : Package} (there : p ∈ m.packages) {id : Nat}
    (listed : id ∈ p.functions) : ∃ c, m.callable? id = some c ∧ c.kind = .function p.id := by
  rw [indexed.packed.lists_functions p there] at listed
  obtain ⟨c, found, kind⟩ := indexed.callables_numbered.listed listed
  exact ⟨c, found, of_decide_eq_true kind⟩

theorem method_of_listed (indexed : m.Indexed) {d : TypeDecl} (there : d ∈ m.types) {id : Nat}
    (listed : id ∈ d.methods) : ∃ c, m.callable? id = some c ∧ c.kind = .method d.id := by
  rw [indexed.owned.lists_methods d (Array.mem_toList_iff.mpr there)] at listed
  obtain ⟨c, found, kind⟩ := indexed.callables_numbered.listed listed
  exact ⟨c, found, of_decide_eq_true kind⟩

theorem property_of_listed (indexed : m.Indexed) {d : TypeDecl} (there : d ∈ m.types) {id : Nat}
    (listed : id ∈ d.properties) : ∃ p, m.property? id = some p ∧ p.owner = d.id := by
  rw [indexed.owned.lists_properties d (Array.mem_toList_iff.mpr there)] at listed
  obtain ⟨p, found, owner⟩ := indexed.properties_numbered.listed listed
  exact ⟨p, found, of_decide_eq_true owner⟩

theorem member_found (indexed : m.Indexed) {d : TypeDecl} (there : d ∈ m.types)
    {member : MemberId} (listed : member ∈ d.members) : (m.member? member).isSome := by
  have inside := Array.mem_toList_iff.mpr there
  cases member with
  | method id =>
    have in_methods : id ∈ d.methods := by
      rw [← indexed.owned.member_methods d inside]
      exact List.mem_filterMap.mpr ⟨_, listed, rfl⟩
    obtain ⟨c, found, -⟩ := indexed.method_of_listed there in_methods
    simp [member?, found]
  | property id =>
    have in_properties : id ∈ d.properties := by
      rw [← indexed.owned.member_properties d inside]
      exact List.mem_filterMap.mpr ⟨_, listed, rfl⟩
    obtain ⟨p, found, -⟩ := indexed.property_of_listed there in_properties
    simp [member?, found]

theorem type_name (indexed : m.Indexed) {d : TypeDecl} (member : d ∈ m.types) :
    m.symbols.type? d.qualifiedName = some d.id :=
  indexed.types_keyed.find (List.mem_map.mpr ⟨d, Array.mem_toList_iff.mpr member, rfl⟩)

theorem function_name (indexed : m.Indexed) {c : Callable} (member : c ∈ m.callables)
    (function : c.isMethod = false) : m.symbols.function? c.qualifiedName = some c.id := by
  have kept : c ∈ m.callables.toList.filter (!·.isMethod) :=
    List.mem_filter.mpr ⟨Array.mem_toList_iff.mpr member, by simp [function]⟩
  exact indexed.functions_keyed.find (List.mem_map.mpr ⟨c, kept, rfl⟩)

theorem package_name (indexed : m.Indexed) {p : Package} (member : p ∈ m.packages) :
    m.symbols.package? p.name = some p.id :=
  indexed.packed.keyed.find (List.mem_map.mpr ⟨p, Array.mem_toList_iff.mpr member, rfl⟩)

theorem type_key (indexed : m.Indexed) {d e : TypeDecl} (first : d ∈ m.types)
    (second : e ∈ m.types) (same : symbolKey d.qualifiedName = symbolKey e.qualifiedName) :
    d = e := by
  have found := indexed.type_name first
  unfold SymbolTable.type? at found
  rw [same] at found
  have ids := found.symm.trans (indexed.type_name second)
  exact indexed.types_numbered.inj first second (Option.some.inj ids)

theorem function_key (indexed : m.Indexed) {c e : Callable} (first : c ∈ m.callables)
    (second : e ∈ m.callables) (function : c.isMethod = false) (function' : e.isMethod = false)
    (same : symbolKey c.qualifiedName = symbolKey e.qualifiedName) : c = e := by
  have found := indexed.function_name first function
  unfold SymbolTable.function? at found
  rw [same] at found
  have ids := found.symm.trans (indexed.function_name second function')
  exact indexed.callables_numbered.inj first second (Option.some.inj ids)

theorem type_of_row (indexed : m.Indexed) {row : String × Nat} (listed : row ∈ m.symbols.types) :
    ∃ d, m.type? row.2 = some d ∧ symbolKey d.qualifiedName = row.1 := by
  obtain ⟨name, named, key⟩ := indexed.types_keyed.listed listed
  obtain ⟨d, member, same⟩ := List.mem_map.mp named
  obtain ⟨rfl, id⟩ := Prod.mk.inj same
  exact ⟨d, id ▸ indexed.types_numbered.get (Array.mem_toList_iff.mp member), key⟩

theorem function_of_row (indexed : m.Indexed) {row : String × Nat}
    (listed : row ∈ m.symbols.functions) :
    ∃ c, m.callable? row.2 = some c ∧ c.isMethod = false ∧
      symbolKey c.qualifiedName = row.1 := by
  obtain ⟨name, named, key⟩ := indexed.functions_keyed.listed listed
  obtain ⟨c, member, same⟩ := List.mem_map.mp named
  obtain ⟨rfl, id⟩ := Prod.mk.inj same
  obtain ⟨member, function⟩ := List.mem_filter.mp member
  have found := indexed.callables_numbered.get (Array.mem_toList_iff.mp member)
  exact ⟨c, id ▸ found, by simpa using function, key⟩

theorem package_of_row (indexed : m.Indexed) {row : String × Nat}
    (listed : row ∈ m.symbols.packages) :
    ∃ p, m.package? row.2 = some p ∧ symbolKey p.name = row.1 := by
  obtain ⟨name, named, key⟩ := indexed.packed.keyed.listed listed
  obtain ⟨p, member, same⟩ := List.mem_map.mp named
  obtain ⟨rfl, id⟩ := Prod.mk.inj same
  exact ⟨p, id ▸ indexed.packed.numbered.get (Array.mem_toList_iff.mp member), key⟩

end CodeModel.Indexed

theorem inside_of_head {t : SyntaxTree} {i : Nat} {d : TypeDecl} (at_ : TypeAt t i d) :
    i < t.size := by
  obtain ⟨head, is, -⟩ := at_.head
  refine SyntaxTree.inside_of_declares ?_
  revert is
  cases t.kind i <;> simp [Registration.head?, NodeKind.declares]

theorem file_id {m : CodeModel} {k : Nat} {f : SourceFile} (found : m.file? k = some f) :
    f.id = k := by
  unfold CodeModel.file? at found
  simpa using List.find?_some found

theorem body_is_child {t : SyntaxTree} {i b : Nat} (body : t.bodyOf i = some b) :
    b ∈ t.children i := by
  have found := List.mem_of_find?_eq_some body
  rwa [List.mem_reverse] at found

namespace Kept

variable {calls : List Added} {a : Assembly}

theorem file_found (kept : Kept calls a) {f : SourceFile} (member : f ∈ a.model.files) :
    a.model.file? f.id = some f := by
  unfold CodeModel.file?
  cases found : a.model.files.find? (·.id = f.id) with
  | none =>
    have different := List.find?_eq_none.mp found f member
    simp at different
  | some g =>
    have apart : (a.model.files.map (·.id)).Nodup := kept.filed.ordered.imp Nat.ne_of_lt
    have same := List.find?_some found
    rw [List.inj_on_of_nodup_map apart (List.mem_of_find?_eq_some found) member
      (of_decide_eq_true same)]

/-- Each file of the model holds the tree that its text was read as, but for the notes on it. -/
theorem read_as (kept : Kept calls a) {f : SourceFile} (there : f ∈ a.model.files) :
    ∃ call t, call.outcome f.id = .ok t ∧ t.Marked f.tree ∧ calls[f.id]? = some call := by
  have low := kept.filed.within f there
  have found := kept.filed.found f.id _ (List.getElem?_eq_getElem low)
  cases read : calls[f.id].outcome f.id with
  | ok t =>
    simp only [read] at found
    obtain ⟨f', known, -, -, marked⟩ := found
    rw [kept.file_found there] at known
    cases known
    exact ⟨_, t, read, marked, List.getElem?_eq_getElem low⟩
  | error errors =>
    simp only [read] at found
    rw [kept.file_found there] at found
    cases found.1

theorem file_of_type (kept : Kept calls a) {d : TypeDecl} (member : d ∈ a.model.types) :
    ∃ f ∈ a.model.files, a.model.file? d.file = some f ∧
      TypeSourced a.model f.tree (f.tree.declarations "" f.tree.root) d := by
  obtain ⟨f, there, same⟩ := kept.types_filed d member
  have file := kept.files f there
  refine ⟨f, there, same ▸ kept.file_found there, ?_⟩
  exact file.sourced.types d member (same.symm.trans file.file.symm)

theorem nodes_of_type (kept : Kept calls a) {d : TypeDecl} (member : d ∈ a.model.types) :
    ∃ f, a.model.file? d.file = some f ∧ d.node < f.tree.size ∧
      ∀ u ∈ d.uses, u.node < f.tree.size := by
  obtain ⟨f, there, found, source⟩ := kept.file_of_type member
  have tree := (kept.files f there).treelike
  refine ⟨f, found, inside_of_head source.at_, fun u listed => ?_⟩
  exact tree.within _ _ (source.at_.uses u listed).child

theorem nodes_of_callable (kept : Kept calls a) {c : Callable} (member : c ∈ a.model.callables) :
    ∃ f, a.model.file? c.file = some f ∧ c.node < f.tree.size ∧ ∀ b ∈ c.body, b < f.tree.size := by
  obtain ⟨f, there, same⟩ := kept.callables_filed c member
  have file := kept.files f there
  have here := same.symm.trans file.file.symm
  have body : c.body = f.tree.bodyOf c.node → ∀ b ∈ c.body, b < f.tree.size := by
    intro is b stored
    rw [is] at stored
    exact file.treelike.within _ _ (body_is_child stored)
  refine ⟨f, same ▸ kept.file_found there, ?_⟩
  cases kind : c.kind with
  | function p =>
    have at_ := (file.sourced.functions c member here p kind).at_
    obtain ⟨byRef, function⟩ := at_.head
    exact ⟨SyntaxTree.inside_of_declares (by rw [function]; rfl), body at_.body⟩
  | method owner =>
    obtain ⟨d, -, -, -, at_⟩ := file.sourced.methods c member here owner kind
    exact ⟨file.treelike.within _ _ at_.child, body at_.body⟩

theorem nodes_of_property (kept : Kept calls a) {p : Property} (member : p ∈ a.model.properties) :
    ∃ d f, a.model.type? p.owner = some d ∧ a.model.file? d.file = some f ∧
      p.node < f.tree.size := by
  have inside := kept.indexed.owned.properties_owned p (Array.mem_toList_iff.mpr member)
  rw [Array.length_toList] at inside
  have found : a.model.types[p.owner]? = some a.model.types[p.owner] :=
    Array.getElem?_eq_getElem inside
  have there := Array.mem_of_getElem? found
  obtain ⟨f, listed, file, -⟩ := kept.file_of_type there
  have kept_file := kept.files f listed
  obtain ⟨d, member', id, at_⟩ := kept_file.sourced.properties p member
  have same : d = a.model.types[p.owner] := by
    refine kept.indexed.types_numbered.inj member' there ?_
    rw [id, kept.indexed.types_numbered _ _ found]
  have here : d.file = f.tree.file := by
    rw [same, kept_file.file]
    exact (file_id file).symm
  obtain ⟨owner, -, child⟩ := (at_ here).child
  exact ⟨_, f, found, file, kept_file.treelike.within _ _ child⟩

/-- Every id of the model leads to where it should. -/
theorem referential (kept : Kept calls a) : a.model.Referential where
  type_ids := kept.indexed.types_numbered
  callable_ids := kept.indexed.callables_numbered
  property_ids := kept.indexed.properties_numbered
  package_ids := kept.indexed.packed.numbered
  package_types p there id listed := by
    rw [kept.indexed.packed.lists_types p there] at listed
    obtain ⟨d, found, package⟩ := kept.indexed.types_numbered.listed listed
    exact ⟨d, found, of_decide_eq_true package⟩
  package_functions p there id listed := kept.indexed.function_of_listed there listed
  type_methods d there id listed := kept.indexed.method_of_listed there listed
  type_properties d there id listed := kept.indexed.property_of_listed there listed
  type_members d there member listed := kept.indexed.member_found there listed
  type_package d member := ⟨kept.indexed.packed.types_housed d (Array.mem_toList_iff.mpr member),
    fun p there => kept.indexed.package_of_type member there⟩
  function_package c member k kind :=
    ⟨kept.indexed.packed.functions_housed c (Array.mem_toList_iff.mpr member) k kind,
      fun p there => kept.indexed.package_of_function member kind there⟩
  method_owner c member k kind :=
    ⟨by simpa using kept.indexed.owned.methods_owned c (Array.mem_toList_iff.mpr member) k kind,
      fun d there => kept.indexed.owner_of_method member kind there⟩
  property_owner p member :=
    ⟨by simpa using kept.indexed.owned.properties_owned p (Array.mem_toList_iff.mpr member),
      fun d there => kept.indexed.owner_of_property member there⟩
  package_inhabited := kept.indexed.peopled
  type_names d member := kept.indexed.type_name member
  function_names c member function := kept.indexed.function_name member function
  package_names p member := kept.indexed.package_name member
  type_keys d first e second same := kept.indexed.type_key first second same
  function_keys c first e second function function' same :=
    kept.indexed.function_key first second function function' same
  type_table row listed := kept.indexed.type_of_row listed
  function_table row listed := kept.indexed.function_of_row listed
  package_table row listed := kept.indexed.package_of_row listed
  type_nodes d member := kept.nodes_of_type member
  callable_nodes c member := kept.nodes_of_callable member
  property_nodes p member := kept.nodes_of_property member

/-- A type stands at a node that declares one, not a function. -/
theorem type_at_node (kept : Kept calls a) {f : SourceFile} (there : f ∈ a.model.files) {i : Nat}
    (type : (f.tree.kind i).isTypeDeclaration = true) (present : a.model.entitiesAt f.id i ≠ 0) :
    ∃ d ∈ a.model.types, d.entity = .node f.id i ∧
      f.tree.metadata i "type_id" = some (.int d.id) := by
  have file := kept.files f there
  have no_callable : a.model.callables.toList.countP (·.entity = .node f.id i) = 0 := by
    refine List.countP_eq_zero.mpr fun c member => ?_
    simp only [Callable.entity, EntityId.node.injEq, decide_eq_true_eq]
    rintro ⟨same, rfl⟩
    have here := same.trans file.file.symm
    rw [Array.mem_toList_iff] at member
    cases kind : c.kind with
    | function p =>
      obtain ⟨byRef, function⟩ := (file.sourced.functions c member here p kind).at_.head
      simp [function, NodeKind.isTypeDeclaration] at type
    | method owner =>
      obtain ⟨d, -, -, -, at_⟩ := file.sourced.methods c member here owner kind
      obtain ⟨byRef, method⟩ := at_.head
      simp [method, NodeKind.isTypeDeclaration] at type
  rw [CodeModel.entitiesAt, no_callable, Nat.add_zero, ← Nat.pos_iff_ne_zero,
    List.countP_pos_iff] at present
  obtain ⟨d, member, entity⟩ := present
  rw [Array.mem_toList_iff] at member
  have entity := of_decide_eq_true entity
  obtain ⟨same, rfl⟩ := EntityId.node.inj entity
  exact ⟨d, member, entity, (file.sourced.types d member (same.trans file.file.symm)).noted⟩

/-- No declaration of a file is lost. -/
theorem accounted (kept : Kept calls a) {f : SourceFile} (there : f ∈ a.model.files) :
    Accounted a f where
  each space i exposed declares := by
    have file := kept.files f there
    have nodup : (f.leftOut a.model).Nodup :=
      (SyntaxTree.declarations_nodup file.treelike f.tree.root "").filter _
    have found := (SyntaxTree.mem_declarations_root file.treelike.below).mpr ⟨exposed, declares⟩
    have listed : i ∈ (f.tree.declarations "" f.tree.root).map (·.2) :=
      List.mem_map.mpr ⟨_, found, rfl⟩
    have once := file.reported.once i listed
    rw [file.file] at once
    have out : i ∈ f.leftOut a.model ↔ a.model.entitiesAt f.id i = 0 := by
      rw [SourceFile.leftOut, List.mem_filter, decide_eq_true_eq, and_iff_right listed]
    rw [nodup.count]
    simp only [out]
    split <;> omega
  warned := by
    have warned := (kept.files f there).reported.warned
    rw [(kept.files f there).file] at warned
    exact warned
  typed i type present := kept.type_at_node there type present

end Kept

/-- After any files were added, the model refers to nothing that is not there, each file has the
number of its call, and each declaration that a file shows was registered or reported. -/
theorem integrity_after (calls : List Added) :
    (Assembly.after calls).model.Referential ∧ Filed calls (.after calls) ∧
      ∀ f ∈ (Assembly.after calls).model.files, Accounted (.after calls) f := by
  have kept := kept_after calls
  exact ⟨kept.referential, kept.filed, fun f there => kept.accounted there⟩

end PhpAnalyser
