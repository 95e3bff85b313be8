import PhpAnalyser.Proofs.Code.Entry
/-!
The vectors and tables of a model hang together: a step that enters a declaration keeps ids, keys
and lists in line with each other.
-/
namespace PhpAnalyser

section Keys

variable {α κ : Type} [DecidableEq κ] {key : α → κ} {old new : List α} {k : κ}

/-- New entries with other keys are not among those with a key. -/
theorem filter_old_key (other : ∀ x ∈ new, key x ≠ k) :
    (old ++ new).filter (key · = k) = old.filter (key · = k) := by
  have none : new.filter (key · = k) = [] := by
    refine List.filter_eq_nil_iff.mpr fun x listed => ?_
    simp [other x listed]
  rw [List.filter_append, none, List.append_nil]

/-- The entries with a new key are those that came with it. -/
theorem filter_new_key (other : ∀ x ∈ old, key x ≠ k) (same : ∀ x ∈ new, key x = k) :
    (old ++ new).filter (key · = k) = new := by
  have none : old.filter (key · = k) = [] := by
    refine List.filter_eq_nil_iff.mpr fun x listed => ?_
    simp [other x listed]
  have all : new.filter (key · = k) = new := by
    refine List.filter_eq_self.mpr fun x listed => ?_
    simp [same x listed]
  rw [List.filter_append, none, all, List.nil_append]

end Keys

structure Packed (packages : Array Package) (table : List (String × Nat)) (types : List TypeDecl)
    (callables : List Callable) : Prop where
  numbered : Numbered Package.id packages
  keyed : Keyed table (packages.toList.map fun p => (p.name, p.id))
  lists_types : ∀ p ∈ packages, p.types = (types.filter (·.package = p.id)).map (·.id)
  lists_functions : ∀ p ∈ packages,
    p.functions = (callables.filter (·.kind = .function p.id)).map (·.id)
  types_housed : ∀ t ∈ types, t.package < packages.size
  functions_housed : ∀ c ∈ callables, ∀ p, c.kind = .function p → p < packages.size

def Peopled (packages : Array Package) : Prop :=
  ∀ p ∈ packages, p.types ≠ [] ∨ p.functions ≠ []

namespace Packed

variable {packages packages' : Array Package} {table table' : List (String × Nat)}
  {types : List TypeDecl} {callables : List Callable} {space : String} {p : Nat}

theorem empty : Packed #[] [] [] [] where
  numbered := .empty
  keyed := .nil
  lists_types := by simp
  lists_functions := by simp
  types_housed := by simp
  functions_housed := by simp

theorem housed (packed : Packed packages table types callables)
    (housing : Housing packages table space packages' table' p) :
    Packed packages' table' types callables := by
  cases housing with
  | found known => exact packed
  | made unknown =>
    have wide : packages.size < (packages.push ⟨packages.size, packageName space, [], []⟩).size := by
      simp
    refine ⟨packed.numbered.push rfl, ?_, ?_, ?_, ?_, ?_⟩
    · rw [Array.toList_push, List.map_append]
      exact packed.keyed.add unknown
    · intro q listed
      rcases Array.mem_push.mp listed with old | rfl
      · exact packed.lists_types q old
      · refine (List.map_eq_nil_iff.mpr (List.filter_eq_nil_iff.mpr fun t member => ?_)).symm
        have low := packed.types_housed t member
        simp only [decide_eq_true_eq]
        omega
    · intro q listed
      rcases Array.mem_push.mp listed with old | rfl
      · exact packed.lists_functions q old
      · refine (List.map_eq_nil_iff.mpr (List.filter_eq_nil_iff.mpr fun c member => ?_)).symm
        simp only [decide_eq_true_eq]
        intro function
        exact absurd (packed.functions_housed c member _ function) (Nat.lt_irrefl _)
    · exact fun t member => Nat.lt_trans (packed.types_housed t member) wide
    · exact fun c member q function =>
        Nat.lt_trans (packed.functions_housed c member q function) wide

theorem place (packed : Packed packages table types callables)
    (housing : Housing packages table space packages' table' p) : p < packages'.size := by
  cases housing with
  | found known =>
    obtain ⟨name, listed, -⟩ := packed.keyed.listed (mem_of_lookup known)
    obtain ⟨q, member, same⟩ := List.mem_map.mp listed
    obtain rfl : q.id = p := (Prod.mk.inj same).2
    exact packed.numbered.lt (Array.mem_toList_iff.mp member)
  | made unknown => simp

/-- A type is listed at the end of its package. -/
theorem addType (packed : Packed packages table types callables) {decl : TypeDecl}
    (house : decl.package < packages.size) :
    Packed (packages.modify decl.package fun p => { p with types := p.types ++ [decl.id] }) table
      (types ++ [decl]) callables where
  numbered := by
    apply packed.numbered.modify
    simp
  keyed := by
    rw [map_modify (by simp)]
    exact packed.keyed
  lists_types q listed := by
    rcases mem_modify listed with ⟨old, found, rfl⟩ | ⟨k, other, found⟩
    · have id := packed.numbered _ _ found
      have lists := packed.lists_types old (Array.mem_of_getElem? found)
      simp [List.filter_append, lists, id]
    · have id := packed.numbered _ _ found
      have lists := packed.lists_types q (Array.mem_of_getElem? found)
      have apart : ¬ decl.package = q.id := by omega
      simp [List.filter_append, lists, apart]
  lists_functions q listed := by
    rcases mem_modify listed with ⟨old, found, rfl⟩ | ⟨k, other, found⟩
    · exact packed.lists_functions old (Array.mem_of_getElem? found)
    · exact packed.lists_functions q (Array.mem_of_getElem? found)
  types_housed t listed := by
    rw [Array.size_modify]
    rcases List.mem_append.mp listed with old | new
    · exact packed.types_housed t old
    · rwa [List.mem_singleton.mp new]
  functions_housed c member q function := by
    rw [Array.size_modify]
    exact packed.functions_housed c member q function

/-- A function is listed at the end of its package. -/
theorem addFunction (packed : Packed packages table types callables) {c : Callable}
    (kind : c.kind = .function p) (house : p < packages.size) :
    Packed (packages.modify p fun p => { p with functions := p.functions ++ [c.id] }) table types
      (callables ++ [c]) where
  numbered := by
    apply packed.numbered.modify
    simp
  keyed := by
    rw [map_modify (by simp)]
    exact packed.keyed
  lists_types q listed := by
    rcases mem_modify listed with ⟨old, found, rfl⟩ | ⟨k, other, found⟩
    · exact packed.lists_types old (Array.mem_of_getElem? found)
    · exact packed.lists_types q (Array.mem_of_getElem? found)
  lists_functions q listed := by
    rcases mem_modify listed with ⟨old, found, rfl⟩ | ⟨k, other, found⟩
    · have id := packed.numbered _ _ found
      have lists := packed.lists_functions old (Array.mem_of_getElem? found)
      simp [List.filter_append, lists, id, kind]
    · have id := packed.numbered _ _ found
      have lists := packed.lists_functions q (Array.mem_of_getElem? found)
      have apart : ¬ p = q.id := by omega
      simp [List.filter_append, lists, kind, apart]
  types_housed t member := by
    rw [Array.size_modify]
    exact packed.types_housed t member
  functions_housed d listed q function := by
    rw [Array.size_modify]
    rcases List.mem_append.mp listed with old | new
    · exact packed.functions_housed d old q function
    · obtain rfl := List.mem_singleton.mp new
      rw [kind] at function
      cases function
      exact house

/-- Methods are in no package. -/
theorem addMethods (packed : Packed packages table types callables) {methods : List Callable}
    {owner : Nat} (kind : ∀ c ∈ methods, c.kind = .method owner) :
    Packed packages table types (callables ++ methods) :=
  { packed with
    lists_functions := by
      intro q member
      have none : methods.filter (·.kind = .function q.id) = [] := by
        refine List.filter_eq_nil_iff.mpr fun c listed => ?_
        simp [kind c listed]
      rw [List.filter_append, none, List.append_nil]
      exact packed.lists_functions q member
    functions_housed := by
      intro c listed q function
      rcases List.mem_append.mp listed with old | new
      · exact packed.functions_housed c old q function
      · rw [kind c new] at function
        cases function }

end Packed

/-- A package that was made just now gets something to list. -/
theorem Peopled.modify {packages packages' : Array Package} {table table' : List (String × Nat)}
    {space : String} {p : Nat} (peopled : Peopled packages)
    (housing : Housing packages table space packages' table' p) {f : Package → Package}
    (adds : ∀ q, (f q).types ≠ [] ∨ (f q).functions ≠ []) : Peopled (packages'.modify p f) := by
  intro q listed
  rcases mem_modify listed with ⟨old, -, rfl⟩ | ⟨k, other, found⟩
  · exact adds old
  · cases housing with
    | found known => exact peopled q (Array.mem_of_getElem? found)
    | made unknown =>
      rw [Array.getElem?_push, if_neg other] at found
      exact peopled q (Array.mem_of_getElem? found)

structure Owned (types : List TypeDecl) (callables : List Callable) (properties : List Property) :
    Prop where
  lists_methods : ∀ t ∈ types,
    t.methods = (callables.filter (·.kind = .method t.id)).map (·.id)
  lists_properties : ∀ t ∈ types,
    t.properties = (properties.filter (·.owner = t.id)).map (·.id)
  member_methods : ∀ t ∈ types, t.members.filterMap MemberId.method? = t.methods
  member_properties : ∀ t ∈ types, t.members.filterMap MemberId.property? = t.properties
  methods_owned : ∀ c ∈ callables, ∀ t, c.kind = .method t → t < types.length
  properties_owned : ∀ p ∈ properties, p.owner < types.length

namespace Owned

variable {types : List TypeDecl} {callables : List Callable} {properties : List Property}

theorem empty : Owned [] [] [] := by
  constructor <;> simp

theorem addFunction (owned : Owned types callables properties) {c : Callable} {p : Nat}
    (kind : c.kind = .function p) : Owned types (callables ++ [c]) properties :=
  { owned with
    lists_methods := by
      intro t member
      simpa [List.filter_append, kind] using owned.lists_methods t member
    methods_owned := by
      intro d listed t method
      rcases List.mem_append.mp listed with old | new
      · exact owned.methods_owned d old t method
      · rw [List.mem_singleton.mp new, kind] at method
        cases method }

section Added

variable {decl : TypeDecl} {methods : List Callable} {fields : List Property}

theorem lists_methods_added (owned : Owned types callables properties)
    (low : ∀ t ∈ types, t.id < types.length) (id : decl.id = types.length)
    (kinds : ∀ c ∈ methods, c.kind = .method decl.id) (ids : decl.methods = methods.map (·.id)) :
    ∀ t ∈ types ++ [decl],
      t.methods = ((callables ++ methods).filter (·.kind = .method t.id)).map (·.id) := by
  intro t listed
  rcases List.mem_append.mp listed with old | new
  · have before := low t old
    rw [filter_old_key]
    · exact owned.lists_methods t old
    · intro c member
      rw [kinds c member, Ne, CallableKind.method.injEq]
      omega
  · obtain rfl := List.mem_singleton.mp new
    rw [filter_new_key _ kinds]
    · exact ids
    · intro c member method
      have before := owned.methods_owned c member _ method
      omega

theorem lists_properties_added (owned : Owned types callables properties)
    (low : ∀ t ∈ types, t.id < types.length) (id : decl.id = types.length)
    (owners : ∀ p ∈ fields, p.owner = decl.id) (ids : decl.properties = fields.map (·.id)) :
    ∀ t ∈ types ++ [decl],
      t.properties = ((properties ++ fields).filter (·.owner = t.id)).map (·.id) := by
  intro t listed
  rcases List.mem_append.mp listed with old | new
  · have before := low t old
    rw [filter_old_key]
    · exact owned.lists_properties t old
    · intro p member
      rw [owners p member]
      omega
  · obtain rfl := List.mem_singleton.mp new
    rw [filter_new_key _ owners]
    · exact ids
    · intro p member
      have before := owned.properties_owned p member
      omega

theorem methods_owned_added (owned : Owned types callables properties)
    (id : decl.id = types.length) (kinds : ∀ c ∈ methods, c.kind = .method decl.id) :
    ∀ c ∈ callables ++ methods, ∀ t, c.kind = .method t → t < (types ++ [decl]).length := by
  intro c listed t method
  rw [List.length_append, List.length_singleton]
  rcases List.mem_append.mp listed with old | new
  · exact Nat.lt_succ_of_lt (owned.methods_owned c old t method)
  · rw [kinds c new, CallableKind.method.injEq] at method
    omega

theorem properties_owned_added (owned : Owned types callables properties)
    (id : decl.id = types.length) (owners : ∀ p ∈ fields, p.owner = decl.id) :
    ∀ p ∈ properties ++ fields, p.owner < (types ++ [decl]).length := by
  intro p listed
  rw [List.length_append, List.length_singleton]
  rcases List.mem_append.mp listed with old | new
  · exact Nat.lt_succ_of_lt (owned.properties_owned p old)
  · have same := owners p new
    omega

/-- A type comes with its members, which no earlier type owns. -/
theorem addType (owned : Owned types callables properties)
    (low : ∀ t ∈ types, t.id < types.length) (id : decl.id = types.length)
    (method_kind : ∀ c ∈ methods, c.kind = .method decl.id)
    (field_owner : ∀ p ∈ fields, p.owner = decl.id)
    (method_ids : decl.methods = methods.map (·.id))
    (field_ids : decl.properties = fields.map (·.id))
    (member_methods : decl.members.filterMap MemberId.method? = decl.methods)
    (member_properties : decl.members.filterMap MemberId.property? = decl.properties) :
    Owned (types ++ [decl]) (callables ++ methods) (properties ++ fields) where
  lists_methods := owned.lists_methods_added low id method_kind method_ids
  lists_properties := owned.lists_properties_added low id field_owner field_ids
  member_methods t listed := by
    rcases List.mem_append.mp listed with old | new
    · exact owned.member_methods t old
    · rwa [List.mem_singleton.mp new]
  member_properties t listed := by
    rcases List.mem_append.mp listed with old | new
    · exact owned.member_properties t old
    · rwa [List.mem_singleton.mp new]
  methods_owned := owned.methods_owned_added id method_kind
  properties_owned := owned.properties_owned_added id field_owner

end Added

end Owned

/-- Ids are places, tables hold the keys of what is declared, and lists follow from the entries. -/
structure CodeModel.Indexed (m : CodeModel) : Prop where
  types_numbered : Numbered TypeDecl.id m.types
  callables_numbered : Numbered Callable.id m.callables
  properties_numbered : Numbered Property.id m.properties
  types_keyed : Keyed m.symbols.types (m.types.toList.map fun t => (t.qualifiedName, t.id))
  functions_keyed : Keyed m.symbols.functions
    ((m.callables.toList.filter (!·.isMethod)).map fun c => (c.qualifiedName, c.id))
  packed : Packed m.packages m.symbols.packages m.types.toList m.callables.toList
  peopled : Peopled m.packages
  owned : Owned m.types.toList m.callables.toList m.properties.toList

namespace CodeModel

theorem indexed_empty : empty.Indexed where
  types_numbered := .empty
  callables_numbered := .empty
  properties_numbered := .empty
  types_keyed := .nil
  functions_keyed := .nil
  packed := .empty
  peopled := by simp [Peopled, empty]
  owned := .empty

end CodeModel

theorem is_method_of_function {c : Callable} {p : Nat} (kind : c.kind = .function p) :
    c.isMethod = false := by
  simp [Callable.isMethod, Callable.owner, kind]

theorem is_method_of_method {c : Callable} {t : Nat} (kind : c.kind = .method t) :
    c.isMethod = true := by
  simp [Callable.isMethod, Callable.owner, kind]

namespace Registration

namespace Filling

variable {r filled : Registration} {i : Nat} {start decl : TypeDecl} {methods : List Callable}
  {properties : List Property}

theorem kinds (filling : Filling r i start filled decl methods properties) :
    ∀ c ∈ methods, c.kind = .method decl.id := by
  intro c member
  rw [filling.id]
  exact (filling.methods_at c member).kind

theorem owners (filling : Filling r i start filled decl methods properties) :
    ∀ p ∈ properties, p.owner = decl.id := by
  intro p member
  rw [filling.id]
  exact (filling.properties_at p member).owned

theorem no_function (filling : Filling r i start filled decl methods properties) :
    methods.filter (!·.isMethod) = [] := by
  refine List.filter_eq_nil_iff.mpr fun c member => ?_
  simp [is_method_of_method (filling.kinds c member)]

end Filling

/-- A declaration that enters, or does not, leaves the model in line. -/
theorem Entered.indexed {r r' : Registration} {space : String} {i : Nat}
    (entered : Entered r space i r') (indexed : r.model.Indexed) : r'.model.Indexed := by
  cases entered with
  | leftOut => exact indexed
  | function fresh housing id kind at_ =>
    have function := is_method_of_function kind
    exact {
      types_numbered := indexed.types_numbered
      callables_numbered := indexed.callables_numbered.push id
      properties_numbered := indexed.properties_numbered
      types_keyed := indexed.types_keyed
      functions_keyed := by
        simpa [SymbolTable.addFunction, List.filter_append, function] using
          indexed.functions_keyed.add fresh
      packed := by
        rw [Array.toList_push]
        exact (indexed.packed.housed housing).addFunction kind (indexed.packed.place housing)
      peopled := by
        dsimp only
        apply indexed.peopled.modify housing
        simp
      owned := by
        rw [Array.toList_push]
        exact indexed.owned.addFunction kind }
  | @type _ _ _ _ decl filled methods properties late fresh housing filling id at_ late_at =>
    have callables : filled.model.callables.toList = r.model.callables.toList ++ methods :=
      filling.callables
    have fields : filled.model.properties.toList = r.model.properties.toList ++ properties :=
      filling.fields
    exact {
      types_numbered := indexed.types_numbered.push id
      callables_numbered := filling.callables_numbered indexed.callables_numbered
      properties_numbered := filling.fields_numbered indexed.properties_numbered
      types_keyed := by
        simpa [SymbolTable.addType] using indexed.types_keyed.add fresh
      functions_keyed := by
        simpa [SymbolTable.addType, callables, List.filter_append, filling.no_function] using
          indexed.functions_keyed
      packed := by
        simp only [callables, Array.toList_push]
        exact ((indexed.packed.housed housing).addType (indexed.packed.place housing)).addMethods
          filling.kinds
      peopled := by
        dsimp only
        apply indexed.peopled.modify housing
        simp
      owned := by
        simp only [callables, fields, Array.toList_push]
        refine indexed.owned.addType (fun t member => ?_) (by simpa using id) filling.kinds
          filling.owners filling.method_ids filling.property_ids filling.member_methods
          filling.member_properties
        simpa using indexed.types_numbered.lt (Array.mem_toList_iff.mp member) }

end Registration

end PhpAnalyser
