import Mathlib.Data.List.Induction
import PhpAnalyser.Proofs.Code.Integrity
import PhpAnalyser.Proofs.Code.Marking
/-!
The account of one file: what was registered from it stands at its nodes, and each declaration that
it shows was registered or reported.
-/
namespace PhpAnalyser

def CodeModel.entitiesAt (m : CodeModel) (file i : Nat) : Nat :=
  m.types.toList.countP (·.entity = .node file i) +
    m.callables.toList.countP (·.entity = .node file i)

structure CodeModel.Grows (m m' : CodeModel) (types : List TypeDecl) (callables : List Callable)
    (properties : List Property) : Prop where
  types : m'.types.toList = m.types.toList ++ types
  callables : m'.callables.toList = m.callables.toList ++ callables
  properties : m'.properties.toList = m.properties.toList ++ properties
  packages : ∀ name p, m.symbols.package? name = some p → m'.symbols.package? name = some p

namespace CodeModel.Grows

variable {m m' m'' : CodeModel} {types types' : List TypeDecl} {callables callables' : List Callable}
  {properties properties' : List Property}

theorem refl (m : CodeModel) : m.Grows m [] [] [] := by
  constructor <;> simp

/-- Another list of files is no growth. -/
theorem files (m : CodeModel) (files : List SourceFile) : m.Grows { m with files } [] [] [] := by
  constructor
  · simp
  · simp
  · simp
  · exact fun name p known => known

theorem trans (first : m.Grows m' types callables properties)
    (second : m'.Grows m'' types' callables' properties') :
    m.Grows m'' (types ++ types') (callables ++ callables') (properties ++ properties') where
  types := by rw [second.types, first.types, List.append_assoc]
  callables := by rw [second.callables, first.callables, List.append_assoc]
  properties := by rw [second.properties, first.properties, List.append_assoc]
  packages name p known := second.packages name p (first.packages name p known)

theorem type_cases (grows : m.Grows m' types callables properties) {d : TypeDecl}
    (member : d ∈ m'.types) : d ∈ m.types ∨ d ∈ types := by
  rw [← Array.mem_toList_iff, grows.types, List.mem_append, Array.mem_toList_iff] at member
  exact member

theorem callable_cases (grows : m.Grows m' types callables properties) {c : Callable}
    (member : c ∈ m'.callables) : c ∈ m.callables ∨ c ∈ callables := by
  rw [← Array.mem_toList_iff, grows.callables, List.mem_append, Array.mem_toList_iff] at member
  exact member

theorem property_cases (grows : m.Grows m' types callables properties) {p : Property}
    (member : p ∈ m'.properties) : p ∈ m.properties ∨ p ∈ properties := by
  rw [← Array.mem_toList_iff, grows.properties, List.mem_append, Array.mem_toList_iff] at member
  exact member

theorem old_type (grows : m.Grows m' types callables properties) {d : TypeDecl}
    (member : d ∈ m.types) : d ∈ m'.types := by
  rw [← Array.mem_toList_iff, grows.types]
  exact List.mem_append_left _ (Array.mem_toList_iff.mpr member)

theorem new_type (grows : m.Grows m' types callables properties) {d : TypeDecl}
    (member : d ∈ types) : d ∈ m'.types := by
  rw [← Array.mem_toList_iff, grows.types]
  exact List.mem_append_right _ member

/-- What stands in other files does not change the count. -/
theorem entities_elsewhere (grows : m.Grows m' types callables properties) {file : Nat}
    (other_types : ∀ d ∈ types, d.file ≠ file) (other_callables : ∀ c ∈ callables, c.file ≠ file)
    (i : Nat) : m'.entitiesAt file i = m.entitiesAt file i := by
  have no_type : types.countP (·.entity = .node file i) = 0 := by
    refine List.countP_eq_zero.mpr fun d member => ?_
    simp [TypeDecl.entity, other_types d member]
  have no_callable : callables.countP (·.entity = .node file i) = 0 := by
    refine List.countP_eq_zero.mpr fun c member => ?_
    simp [Callable.entity, other_callables c member]
  simp only [entitiesAt, grows.types, grows.callables, List.countP_append, no_type, no_callable,
    Nat.add_zero]

end CodeModel.Grows

namespace Housing

variable {packages packages' : Array Package} {table table' : List (String × Nat)}
  {space : String} {p : Nat}

theorem lookup (housing : Housing packages table space packages' table' p) :
    table'.lookup (symbolKey (packageName space)) = some p := by
  cases housing with
  | found known => exact known
  | made unknown => exact lookup_added unknown

theorem keeps (housing : Housing packages table space packages' table' p) {key : String} {id : Nat}
    (known : table.lookup key = some id) : table'.lookup key = some id := by
  cases housing with
  | found => exact known
  | made => exact lookup_add known

end Housing

namespace Registration

variable {r r' : Registration} {space : String} {i : Nat}

theorem Entered.marked (entered : Entered r space i r') : r.tree.Marked r'.tree := by
  cases entered with
  | leftOut => exact .refl _
  | function => exact .refl _
  | type => exact SyntaxTree.marked_set _ _ _ _

theorem Entered.files (entered : Entered r space i r') : r'.model.files = r.model.files := by
  cases entered <;> rfl

theorem function_grows (packages' : Array Package) {packages : Array Package}
    {table : List (String × Nat)} {c : Callable} {p : Nat}
    (housing : Housing r.model.packages r.model.symbols.packages space packages table p) :
    r.model.Grows { r.model with
      packages := packages'
      callables := r.model.callables.push c
      symbols := { r.model.symbols.addFunction c.qualifiedName c.id with packages := table } }
      [] [c] [] := by
  constructor
  · simp
  · simp
  · simp
  · exact fun name p known => housing.keeps known

theorem type_grows (packages' : Array Package) {packages : Array Package}
    {table : List (String × Nat)} {symbols : SymbolTable} {start decl : TypeDecl} {filled : Registration}
    {methods : List Callable} {properties : List Property}
    (housing : Housing r.model.packages r.model.symbols.packages space packages table decl.package)
    (filling : Filling (r.placed packages symbols) i start filled decl methods properties) :
    r.model.Grows
      { files := r.model.files
        packages := packages'
        types := r.model.types.push decl
        callables := filled.model.callables
        properties := filled.model.properties
        symbols := { r.model.symbols.addType decl.qualifiedName decl.id with packages := table } }
      [decl] methods properties := by
  constructor
  · simp
  · exact filling.callables
  · exact filling.fields
  · exact fun name p known => housing.keeps known

/-- What a declaration adds is of its file, and a property comes with the type that owns it. -/
theorem Entered.grows (entered : Entered r space i r') : ∃ types callables properties,
      r.model.Grows r'.model types callables properties ∧ (∀ d ∈ types, d.file = r.tree.file) ∧
      (∀ c ∈ callables, c.file = r.tree.file) ∧
      ∀ p ∈ properties, ∃ d ∈ types, d.id = p.owner := by
  cases entered with
  | leftOut =>
    refine ⟨[], [], [], .refl _, ?_⟩
    simp
  | @function packages table c p fresh housing id kind at_ =>
    refine ⟨[], [c], [], function_grows _ housing, by simp, ?_, by simp⟩
    intro d listed
    rw [List.mem_singleton.mp listed]
    exact at_.file
  | @type packages table symbols start decl filled methods properties late fresh housing filling id
      at_ late_at =>
    refine ⟨[decl], methods, properties, type_grows _ housing filling, ?_, ?_, ?_⟩
    · intro d listed
      rw [List.mem_singleton.mp listed]
      exact at_.file
    · exact fun c member => (filling.methods_at c member).file
    · intro p member
      refine ⟨decl, List.mem_singleton.mpr rfl, ?_⟩
      rw [filling.id]
      exact (filling.properties_at p member).owned.symm

end Registration

structure TypeSourced (m : CodeModel) (t : SyntaxTree) (entries : List (String × Nat))
    (d : TypeDecl) : Prop where
  at_ : TypeAt t d.node d
  noted : t.metadata d.node "type_id" = some (.int d.id)
  entry : ∃ space, (space, d.node) ∈ entries ∧
    m.symbols.package? (packageName space) = some d.package

structure FunctionSourced (m : CodeModel) (t : SyntaxTree) (entries : List (String × Nat))
    (c : Callable) (p : Nat) : Prop where
  at_ : FunctionAt t c.node c
  entry : ∃ space, (space, c.node) ∈ entries ∧
    m.symbols.package? (packageName space) = some p

structure Sourced (m : CodeModel) (t : SyntaxTree) (primed : List (Nat × Nat))
    (entries : List (String × Nat)) : Prop where
  types : ∀ d ∈ m.types, d.file = t.file → TypeSourced m t entries d
  functions : ∀ c ∈ m.callables, c.file = t.file → ∀ p, c.kind = .function p →
    FunctionSourced m t entries c p
  methods : ∀ c ∈ m.callables, c.file = t.file → ∀ owner, c.kind = .method owner →
    ∃ d ∈ m.types, d.id = owner ∧ d.file = t.file ∧ MethodAt t d.node owner c
  properties : ∀ p ∈ m.properties, ∃ d ∈ m.types, d.id = p.owner ∧
    (d.file = t.file → PropertyAt t d.node p.owner p)
  primed : ∀ e ∈ primed, ∃ d ∈ m.types, d.id = e.2 ∧ d.file = t.file ∧
    e.1 ∈ t.lateBoundTo d.node d.qualifiedName

section Transfer

variable {m m' : CodeModel} {t t' : SyntaxTree} {entries entries' : List (String × Nat)}

theorem SyntaxTree.Marked.trait_use_at (marked : t.Marked t') :
    t'.traitUseAt = t.traitUseAt := by
  have precedence : t'.precedence? = t.precedence? := by
    funext i
    simp only [SyntaxTree.precedence?, marked.kind]
  have rename : t'.rename? = t.rename? := by
    funext i
    simp only [SyntaxTree.rename?, marked.kind]
  funext i traits
  simp only [SyntaxTree.traitUseAt, marked.children, precedence, rename]

theorem SyntaxTree.Marked.late_bound_to (marked : t.Marked t') :
    t'.lateBoundTo = t.lateBoundTo := by
  funext i name
  simp only [SyntaxTree.lateBoundTo, marked.descendants, marked.kind]

theorem UseAt.marked {i : Nat} {u : TraitUse} (at_ : UseAt t i u) (marked : t.Marked t') :
    UseAt t' i u where
  child := by
    rw [marked.children]
    exact at_.child
  read := by
    rw [marked.trait_use_at]
    exact at_.read

theorem TypeAt.marked {i : Nat} {d : TypeDecl} (at_ : TypeAt t i d) (marked : t.Marked t') :
    TypeAt t' i d where
  node := at_.node
  file := at_.file.trans marked.file.symm
  head := by
    rw [marked.kind]
    exact at_.head
  clauses := by
    rw [marked.kind]
    exact at_.clauses
  uses u listed := (at_.uses u listed).marked marked

theorem FunctionAt.marked {i : Nat} {c : Callable} (at_ : FunctionAt t i c)
    (marked : t.Marked t') : FunctionAt t' i c where
  node := at_.node
  file := at_.file.trans marked.file.symm
  head := by
    rw [marked.kind]
    exact at_.head
  modifiers := at_.modifiers
  body := by
    rw [marked.body]
    exact at_.body

theorem MethodAt.marked {i owner : Nat} {c : Callable} (at_ : MethodAt t i owner c)
    (marked : t.Marked t') : MethodAt t' i owner c where
  kind := at_.kind
  child := by
    rw [marked.children]
    exact at_.child
  file := at_.file.trans marked.file.symm
  head := by
    rw [marked.kind]
    exact at_.head
  body := by
    rw [marked.body]
    exact at_.body

theorem PropertyAt.marked {i owner : Nat} {p : Property} (at_ : PropertyAt t i owner p)
    (marked : t.Marked t') : PropertyAt t' i owner p where
  owned := at_.owned
  child := by
    rw [marked.children]
    exact at_.child
  head := by
    rw [marked.kind]
    exact at_.head

theorem SyntaxTree.Marked.duplicate_at (marked : t.Marked t') : t'.duplicateAt = t.duplicateAt := by
  funext i
  simp only [SyntaxTree.duplicateAt, marked.kind, marked.file, marked.span]

end Transfer

namespace Sourced

variable {m m' : CodeModel} {t t' : SyntaxTree} {primed primed' : List (Nat × Nat)}
  {entries entries' : List (String × Nat)} {types : List TypeDecl} {callables : List Callable}
  {properties : List Property}

/-- A note leaves everything where it is, if the notes on the types stay. -/
theorem marked (sourced : Sourced m t primed entries) (marked : t.Marked t')
    (noted : ∀ d ∈ m.types, d.file = t.file →
      t'.metadata d.node "type_id" = t.metadata d.node "type_id") :
    Sourced m t' primed entries where
  types d member here := by
    rw [marked.file] at here
    have source := sourced.types d member here
    exact ⟨source.at_.marked marked, (noted d member here).trans source.noted, source.entry⟩
  functions c member here p kind := by
    rw [marked.file] at here
    have source := sourced.functions c member here p kind
    exact ⟨source.at_.marked marked, source.entry⟩
  methods c member here owner kind := by
    rw [marked.file] at here ⊢
    obtain ⟨d, there, id, file, at_⟩ := sourced.methods c member here owner kind
    exact ⟨d, there, id, file, at_.marked marked⟩
  properties p member := by
    obtain ⟨d, there, id, at_⟩ := sourced.properties p member
    rw [marked.file]
    exact ⟨d, there, id, fun here => (at_ here).marked marked⟩
  primed e listed := by
    rw [marked.file, marked.late_bound_to]
    exact sourced.primed e listed

/-- A larger model, if what is new in it stands in the file too. -/
theorem grows (sourced : Sourced m t primed entries)
    (grows : m.Grows m' types callables properties) (longer : ∀ e ∈ entries, e ∈ entries')
    (new_types : ∀ d ∈ types, d.file = t.file → TypeSourced m' t entries' d)
    (new_functions : ∀ c ∈ callables, c.file = t.file → ∀ p, c.kind = .function p →
      FunctionSourced m' t entries' c p)
    (new_methods : ∀ c ∈ callables, c.file = t.file → ∀ owner, c.kind = .method owner →
      ∃ d ∈ m'.types, d.id = owner ∧ d.file = t.file ∧ MethodAt t d.node owner c)
    (new_properties : ∀ p ∈ properties, ∃ d ∈ m'.types, d.id = p.owner ∧
      (d.file = t.file → PropertyAt t d.node p.owner p))
    (new_primed : ∀ e ∈ primed', e ∈ primed ∨ ∃ d ∈ m'.types, d.id = e.2 ∧ d.file = t.file ∧
      e.1 ∈ t.lateBoundTo d.node d.qualifiedName) :
    Sourced m' t primed' entries' where
  types d member here := by
    rcases grows.type_cases member with old | new
    · obtain ⟨at_, noted, space, listed, package⟩ := sourced.types d old here
      exact ⟨at_, noted, space, longer _ listed, grows.packages _ _ package⟩
    · exact new_types d new here
  functions c member here p kind := by
    rcases grows.callable_cases member with old | new
    · obtain ⟨at_, space, listed, package⟩ := sourced.functions c old here p kind
      exact ⟨at_, space, longer _ listed, grows.packages _ _ package⟩
    · exact new_functions c new here p kind
  methods c member here owner kind := by
    rcases grows.callable_cases member with old | new
    · obtain ⟨d, there, rest⟩ := sourced.methods c old here owner kind
      exact ⟨d, grows.old_type there, rest⟩
    · exact new_methods c new here owner kind
  properties p member := by
    rcases grows.property_cases member with old | new
    · obtain ⟨d, there, rest⟩ := sourced.properties p old
      exact ⟨d, grows.old_type there, rest⟩
    · exact new_properties p new
  primed e listed := by
    rcases new_primed e listed with old | new
    · obtain ⟨d, there, rest⟩ := sourced.primed e old
      exact ⟨d, grows.old_type there, rest⟩
    · exact new

/-- What enters from another file leaves the account of this one as it is. -/
theorem elsewhere (sourced : Sourced m t primed entries)
    (grows : m.Grows m' types callables properties) {file : Nat} (other : file ≠ t.file)
    (type_file : ∀ d ∈ types, d.file = file) (callable_file : ∀ c ∈ callables, c.file = file)
    (owner : ∀ p ∈ properties, ∃ d ∈ types, d.id = p.owner) :
    Sourced m' t primed entries := by
  refine sourced.grows grows (fun _ listed => listed) ?_ ?_ ?_ ?_ fun _ listed => .inl listed
  · exact fun d new here => absurd ((type_file d new).symm.trans here) other
  · exact fun c new here => absurd ((callable_file c new).symm.trans here) other
  · exact fun c new here => absurd ((callable_file c new).symm.trans here) other
  · intro p new
    obtain ⟨d, there, id⟩ := owner p new
    exact ⟨d, grows.new_type there, id, fun here =>
      absurd ((type_file d there).symm.trans here) other⟩

/-- A declaration that is not among the entries was not registered. -/
theorem absent (sourced : Sourced m t primed entries) {i : Nat}
    (declares : (t.kind i).declares = true) (missing : i ∉ entries.map (·.2)) :
    m.entitiesAt t.file i = 0 := by
  have no_type : m.types.toList.countP (·.entity = .node t.file i) = 0 := by
    refine List.countP_eq_zero.mpr fun d member => ?_
    simp only [TypeDecl.entity, EntityId.node.injEq, decide_eq_true_eq]
    rintro ⟨here, rfl⟩
    obtain ⟨space, listed, -⟩ := (sourced.types d (Array.mem_toList_iff.mp member) here).entry
    exact missing (List.mem_map.mpr ⟨_, listed, rfl⟩)
  have no_callable : m.callables.toList.countP (·.entity = .node t.file i) = 0 := by
    refine List.countP_eq_zero.mpr fun c member => ?_
    simp only [Callable.entity, EntityId.node.injEq, decide_eq_true_eq]
    rintro ⟨here, rfl⟩
    rw [Array.mem_toList_iff] at member
    cases kind : c.kind with
    | function p =>
      obtain ⟨space, listed, -⟩ := (sourced.functions c member here p kind).entry
      exact missing (List.mem_map.mpr ⟨_, listed, rfl⟩)
    | method owner =>
      obtain ⟨d, -, -, -, at_⟩ := sourced.methods c member here owner kind
      obtain ⟨byRef, method⟩ := at_.head
      simp [method, NodeKind.declares] at declares
  rw [CodeModel.entitiesAt, no_type, no_callable]

end Sourced

namespace Registration

section Sourced

variable {r r' : Registration} {space : String} {i : Nat} {entries : List (String × Nat)}

/-- The function that enters stands at its node. -/
theorem function_sourced {packages packages' : Array Package} {table : List (String × Nat)}
    {c : Callable} {p : Nat}
    (housing : Housing r.model.packages r.model.symbols.packages space packages table p)
    (kind : c.kind = .function p) (at_ : FunctionAt r.tree i c)
    (sourced : Sourced r.model r.tree r.primed entries) :
    Sourced { r.model with
      packages := packages'
      callables := r.model.callables.push c
      symbols := { r.model.symbols.addFunction c.qualifiedName c.id with packages := table } }
      r.tree r.primed (entries ++ [(space, i)]) := by
  refine sourced.grows (function_grows _ housing) (fun e listed => List.mem_append_left _ listed)
    (by simp) ?_ ?_ (by simp) fun e listed => .inl listed
  · intro c' new here q kind'
    obtain rfl := List.mem_singleton.mp new
    obtain rfl : p = q := by
      rw [kind] at kind'
      exact CallableKind.function.inj kind'
    obtain rfl := at_.node
    exact ⟨at_, space, by simp, housing.lookup⟩
  · intro c' new here owner method
    rw [List.mem_singleton.mp new, kind] at method
    cases method

/-- The note on the node of a declaration that is new says nothing about the others. -/
theorem noted_sourced (fresh : i ∉ entries.map (·.2)) (id : Nat)
    (sourced : Sourced r.model r.tree r.primed entries) :
    Sourced r.model (r.tree.setMetadata i "type_id" (.int id)) r.primed entries := by
  refine sourced.marked (SyntaxTree.marked_set ..) fun d member here =>
    SyntaxTree.metadata_other ?_ _ _ _
  rintro rfl
  obtain ⟨space', there, -⟩ := (sourced.types d member here).entry
  exact fresh (List.mem_map.mpr ⟨_, there, rfl⟩)

/-- The type that enters stands at its node, with its members below. -/
theorem type_sourced {packages packages' : Array Package} {table : List (String × Nat)}
    {symbols : SymbolTable} {start decl : TypeDecl} {filled : Registration}
    {methods : List Callable} {properties : List Property} {late : List (Nat × Nat)}
    (housing : Housing r.model.packages r.model.symbols.packages space packages table decl.package)
    (filling : Filling (r.placed packages symbols) i start filled decl methods properties)
    (at_ : TypeAt r.tree i decl)
    (late_at : ∀ entry ∈ late,
      entry.1 ∈ r.tree.lateBoundTo i decl.qualifiedName ∧ entry.2 = decl.id)
    (declares : (r.tree.kind i).declares = true) (fresh : i ∉ entries.map (·.2))
    (sourced : Sourced r.model r.tree r.primed entries) :
    Sourced
      { files := r.model.files
        packages := packages'
        types := r.model.types.push decl
        callables := filled.model.callables
        properties := filled.model.properties
        symbols := { r.model.symbols.addType decl.qualifiedName decl.id with packages := table } }
      (r.tree.setMetadata i "type_id" (.int decl.id)) (r.primed ++ late)
      (entries ++ [(space, i)]) := by
  have marked := SyntaxTree.marked_set r.tree i "type_id" (.int decl.id)
  have grows := type_grows packages' housing filling
  have new := grows.new_type (List.mem_singleton.mpr rfl)
  have start_id : start.id = decl.id := filling.id.symm
  obtain rfl := at_.node
  refine (noted_sourced fresh decl.id sourced).grows grows
    (fun e listed => List.mem_append_left _ listed) ?_ ?_ ?_ ?_ ?_
  · intro d there here
    obtain rfl := List.mem_singleton.mp there
    exact ⟨at_.marked marked, SyntaxTree.metadata_set (SyntaxTree.inside_of_declares declares) _ _,
      space, by simp, housing.lookup⟩
  · intro c there here p function
    rw [(filling.methods_at c there).kind] at function
    cases function
  · intro c there here owner method
    have method_at := filling.methods_at c there
    rw [method_at.kind] at method
    obtain rfl := CallableKind.method.inj method
    exact ⟨decl, new, start_id.symm, at_.file, method_at.marked marked⟩
  · intro p there
    have property_at := filling.properties_at p there
    obtain owned := property_at.owned
    refine ⟨decl, new, start_id.symm.trans owned.symm, fun here => ?_⟩
    rw [owned]
    exact property_at.marked marked
  · intro e there
    rcases List.mem_append.mp there with old | late
    · exact .inl old
    · obtain ⟨found, id⟩ := late_at e late
      refine .inr ⟨decl, new, id.symm, at_.file, ?_⟩
      rw [marked.late_bound_to]
      exact found

/-- The declaration that enters stands at its node. -/
theorem Entered.sourced (entered : Entered r space i r')
    (declares : (r.tree.kind i).declares = true) (fresh : i ∉ entries.map (·.2))
    (sourced : Sourced r.model r.tree r.primed entries) :
    Sourced r'.model r'.tree r'.primed (entries ++ [(space, i)]) := by
  cases entered with
  | leftOut =>
    exact sourced.grows (.refl _) (fun e listed => List.mem_append_left _ listed) (by simp)
      (by simp) (by simp) (by simp) fun e listed => .inl listed
  | function unknown housing id kind at_ => exact function_sourced housing kind at_ sourced
  | type unknown housing filling id at_ late_at =>
    exact type_sourced housing filling at_ late_at declares fresh sourced

end Sourced

/-- A declaration is left out with a warning, or counts as one more entity at its node. -/
theorem Entered.counts {r r' : Registration} {space : String} {i : Nat}
    (entered : Entered r space i r') :
    (r'.model = r.model ∧ r'.diagnostics = r.diagnostics ++ [r.tree.duplicateAt i]) ∨
      (r'.diagnostics = r.diagnostics ∧ ∀ j, (r.tree.kind j).declares = true →
        r'.model.entitiesAt r.tree.file j =
          r.model.entitiesAt r.tree.file j + if j = i then 1 else 0) := by
  cases entered with
  | leftOut => exact .inl ⟨rfl, rfl⟩
  | @function packages table c p unknown housing id kind at_ =>
    refine .inr ⟨rfl, fun j declares => ?_⟩
    have here : c.entity = .node r.tree.file i := by
      rw [Callable.entity, at_.file, at_.node]
    simp only [CodeModel.entitiesAt, Array.toList_push, List.countP_append, List.countP_singleton,
      here, EntityId.node.injEq, true_and, decide_eq_true_eq, eq_comm (a := i)]
    omega
  | @type packages table symbols start decl filled methods properties late unknown housing filling
      id at_ late_at =>
    refine .inr ⟨rfl, fun j declares => ?_⟩
    have here : decl.entity = .node r.tree.file i := by
      rw [TypeDecl.entity, at_.file, at_.node]
    have callables : filled.model.callables.toList = r.model.callables.toList ++ methods :=
      filling.callables
    have none : methods.countP (·.entity = .node r.tree.file j) = 0 := by
      refine List.countP_eq_zero.mpr fun c member => ?_
      simp only [Callable.entity, EntityId.node.injEq, decide_eq_true_eq]
      rintro ⟨-, rfl⟩
      obtain ⟨byRef, method⟩ := (filling.methods_at c member).head
      have method : r.tree.kind c.node = .method c.name c.modifiers byRef := method
      simp [method, NodeKind.declares] at declares
    simp only [CodeModel.entitiesAt, Array.toList_push, List.countP_append, List.countP_singleton,
      here, callables, none, EntityId.node.injEq, true_and, decide_eq_true_eq, eq_comm (a := i)]
    omega

end Registration

structure Reported (m : CodeModel) (diagnostics : List Diagnostic) (t : SyntaxTree)
    (nodes : List Nat) : Prop where
  once : ∀ i ∈ nodes, m.entitiesAt t.file i ≤ 1
  warned : diagnostics = (nodes.filter (m.entitiesAt t.file · = 0)).map t.duplicateAt

namespace Reported

variable {m m' : CodeModel} {diagnostics : List Diagnostic} {t t' : SyntaxTree} {nodes : List Nat}
  {i : Nat}

theorem marked (reported : Reported m diagnostics t nodes) (marked : t.Marked t') :
    Reported m diagnostics t' nodes where
  once := by
    rw [marked.file]
    exact reported.once
  warned := by
    rw [marked.file, marked.duplicate_at]
    exact reported.warned

theorem leftOut (reported : Reported m diagnostics t nodes) (none : m.entitiesAt t.file i = 0) :
    Reported m (diagnostics ++ [t.duplicateAt i]) t (nodes ++ [i]) where
  once j listed := by
    rcases List.mem_append.mp listed with old | new
    · exact reported.once j old
    · rw [List.mem_singleton.mp new, none]
      exact Nat.zero_le 1
  warned := by
    rw [reported.warned]
    simp [List.filter_append, none]

theorem entered (reported : Reported m diagnostics t nodes)
    (same : ∀ j ∈ nodes, m'.entitiesAt t.file j = m.entitiesAt t.file j)
    (one : m'.entitiesAt t.file i = 1) : Reported m' diagnostics t (nodes ++ [i]) where
  once j listed := by
    rcases List.mem_append.mp listed with old | new
    · rw [same j old]
      exact reported.once j old
    · obtain rfl := List.mem_singleton.mp new
      exact Nat.le_of_eq one
  warned := by
    have kept : nodes.filter (m'.entitiesAt t.file · = 0) =
        nodes.filter (m.entitiesAt t.file · = 0) :=
      List.filter_congr fun j listed => by rw [same j listed]
    rw [reported.warned, List.filter_append, kept]
    simp [one]

end Reported

/-- The registration of a file once some of its declarations were added. -/
structure Progress (m : CodeModel) (t : SyntaxTree) (entries : List (String × Nat))
    (r : Registration) : Prop where
  indexed : r.model.Indexed
  files : r.model.files = m.files
  marked : t.Marked r.tree
  sourced : Sourced r.model r.tree r.primed entries
  reported : Reported r.model r.diagnostics r.tree (entries.map (·.2))
  grown : ∃ types callables properties, m.Grows r.model types callables properties ∧
    (∀ d ∈ types, d.file = t.file) ∧ (∀ c ∈ callables, c.file = t.file) ∧
    ∀ p ∈ properties, ∃ d ∈ types, d.id = p.owner

namespace Progress

variable {m : CodeModel} {t : SyntaxTree} {entries : List (String × Nat)} {r r' : Registration}

theorem start (indexed : m.Indexed) (types : ∀ d ∈ m.types, d.file ≠ t.file)
    (callables : ∀ c ∈ m.callables, c.file ≠ t.file) :
    Progress m t [] ⟨m, [], t, []⟩ where
  indexed := indexed
  files := rfl
  marked := .refl t
  sourced := {
    types := fun d member here => absurd here (types d member)
    functions := fun c member here => absurd here (callables c member)
    methods := fun c member here => absurd here (callables c member)
    properties := by
      intro p member
      have inside := indexed.owned.properties_owned p (Array.mem_toList_iff.mpr member)
      rw [Array.length_toList] at inside
      have found : m.types[p.owner]? = some m.types[p.owner] := Array.getElem?_eq_getElem inside
      have there := Array.mem_of_getElem? found
      exact ⟨_, there, indexed.types_numbered _ _ found, fun here => absurd here (types _ there)⟩
    primed := by simp }
  reported := ⟨by simp, rfl⟩
  grown := ⟨[], [], [], .refl m, by simp, by simp, by simp⟩

theorem step (progress : Progress m t entries r) {space : String} {i : Nat}
    (entered : Registration.Entered r space i r') (declares : (t.kind i).declares = true)
    (fresh : i ∉ entries.map (·.2))
    (declared : ∀ e ∈ entries, (t.kind e.2).declares = true) :
    Progress m t (entries ++ [(space, i)]) r' where
  indexed := entered.indexed progress.indexed
  files := entered.files.trans progress.files
  marked := progress.marked.trans entered.marked
  sourced := by
    rw [← progress.marked.kind] at declares
    exact entered.sourced declares fresh progress.sourced
  reported := by
    have kinds := progress.marked.kind
    rw [← kinds] at declares declared
    have absent := progress.sourced.absent declares fresh
    refine Reported.marked ?_ entered.marked
    rw [List.map_append, List.map_singleton]
    rcases entered.counts with ⟨model, diagnostics⟩ | ⟨diagnostics, counts⟩
    · rw [model, diagnostics]
      exact progress.reported.leftOut absent
    · rw [diagnostics]
      refine progress.reported.entered (fun j listed => ?_) ?_
      · obtain ⟨e, there, rfl⟩ := List.mem_map.mp listed
        rw [counts _ (declared e there), if_neg, Nat.add_zero]
        rintro rfl
        exact fresh listed
      · rw [counts i declares, absent, if_pos rfl]
  grown := by
    obtain ⟨types, callables, properties, grows, type_file, callable_file, owner⟩ := progress.grown
    obtain ⟨types', callables', properties', grows', type_file', callable_file', owner'⟩ :=
      entered.grows
    rw [progress.marked.file] at type_file' callable_file'
    refine ⟨_, _, _, grows.trans grows', ?_, ?_, ?_⟩
    · exact fun d listed => (List.mem_append.mp listed).elim (type_file d) (type_file' d)
    · exact fun c listed => (List.mem_append.mp listed).elim (callable_file c) (callable_file' c)
    · intro p listed
      rcases List.mem_append.mp listed with old | new
      · obtain ⟨d, there, id⟩ := owner p old
        exact ⟨d, List.mem_append_left _ there, id⟩
      · obtain ⟨d, there, id⟩ := owner' p new
        exact ⟨d, List.mem_append_right _ there, id⟩

end Progress

/-- The registration of a file, by induction on its declarations. -/
theorem progress_of_entries {m : CodeModel} {t : SyntaxTree} (indexed : m.Indexed)
    (types : ∀ d ∈ m.types, d.file ≠ t.file) (callables : ∀ c ∈ m.callables, c.file ≠ t.file)
    (entries : List (String × Nat)) (apart : (entries.map (·.2)).Nodup)
    (declared : ∀ e ∈ entries, (t.kind e.2).declares = true) :
    Progress m t entries (entries.foldl Registration.add ⟨m, [], t, []⟩) := by
  induction entries using List.reverseRecOn with
  | nil => exact .start indexed types callables
  | append_singleton entries entry ih =>
    obtain ⟨space, i⟩ := entry
    rw [List.map_append, List.nodup_append] at apart
    obtain ⟨apart, -, fresh⟩ := apart
    have progress := ih apart fun e listed => declared e (List.mem_append_left _ listed)
    have declares : (t.kind i).declares = true := declared (space, i) (by simp)
    rw [List.foldl_append]
    have entered := Registration.add_entered (entries.foldl Registration.add ⟨m, [], t, []⟩) space i
      (by rwa [progress.marked.kind])
    refine progress.step entered declares (fun listed => fresh i listed i (by simp) rfl)
      fun e listed => declared e (List.mem_append_left _ listed)

end PhpAnalyser
