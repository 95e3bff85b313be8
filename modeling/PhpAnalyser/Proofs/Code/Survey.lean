import PhpAnalyser.Proofs.Code.Referential
/-!
The outlines of a run: each file adds those that its text shows, whatever was added before.
-/
namespace PhpAnalyser

/-- Ids of entries lead back to them. -/
theorem Numbered.find_each {α : Type} {id : α → Nat} {entries : Array α}
    (numbered : Numbered id entries) {xs : List α} (each : ∀ x ∈ xs, x ∈ entries) :
    (xs.map id).filterMap (fun i => entries[i]?) = xs := by
  have found : ∀ x ∈ xs, (fun i => entries[i]?) (id x) = some x :=
    fun x member => numbered.get (each x member)
  rw [List.filterMap_map]
  exact (List.filterMap_congr found).trans List.filterMap_some

namespace CodeModel.Indexed

variable {m : CodeModel}

theorem methods_of (indexed : m.Indexed) {d : TypeDecl} (there : d ∈ m.types) :
    m.methodsOf d = m.callables.toList.filter (·.kind = .method d.id) := by
  rw [methodsOf, indexed.owned.lists_methods d (Array.mem_toList_iff.mpr there)]
  apply indexed.callables_numbered.find_each
  exact fun c listed => Array.mem_toList_iff.mp (List.mem_filter.mp listed).1

theorem properties_of (indexed : m.Indexed) {d : TypeDecl} (there : d ∈ m.types) :
    m.propertiesOf d = m.properties.toList.filter (·.owner = d.id) := by
  rw [propertiesOf, indexed.owned.lists_properties d (Array.mem_toList_iff.mpr there)]
  apply indexed.properties_numbered.find_each
  exact fun p listed => Array.mem_toList_iff.mp (List.mem_filter.mp listed).1

/-- A package that a name leads to has the key of that name. -/
theorem space_of (indexed : m.Indexed) {name : String} {k : Nat}
    (known : m.symbols.package? name = some k) : m.spaceOf k = symbolKey name := by
  obtain ⟨p, found, key⟩ := indexed.package_of_row (mem_of_lookup known)
  rw [spaceOf, show m.package? k = some p from found]
  exact key

/-- A package is known by a name with its key. -/
theorem package_known (indexed : m.Indexed) {k : Nat} (inside : k < m.packages.size) :
    ∃ name, m.symbols.package? name = some k := by
  have found : m.packages[k]? = some m.packages[k] := Array.getElem?_eq_getElem inside
  have known := indexed.package_name (Array.mem_of_getElem? found)
  rw [indexed.packed.numbered k _ found] at known
  exact ⟨_, known⟩

end CodeModel.Indexed

namespace CodeModel.Grows

variable {m m' : CodeModel} {types : List TypeDecl} {callables : List Callable}
  {properties : List Property} {files : FileTable}

theorem space_of (grows : m.Grows m' types callables properties) (indexed : m.Indexed)
    (indexed' : m'.Indexed) {k : Nat} (inside : k < m.packages.size) :
    m'.spaceOf k = m.spaceOf k := by
  obtain ⟨name, known⟩ := indexed.package_known inside
  rw [indexed.space_of known, indexed'.space_of (grows.packages _ _ known)]

theorem methods_of (grows : m.Grows m' types callables properties) (indexed : m.Indexed)
    {d : TypeDecl} (there : d ∈ m.types) : m'.methodsOf d = m.methodsOf d := by
  refine List.filterMap_congr fun id listed => ?_
  obtain ⟨c, found, -⟩ := indexed.method_of_listed there listed
  have low := (Array.getElem?_eq_some_iff.mp found).1
  rw [callable?, callable?, ← Array.getElem?_toList, ← Array.getElem?_toList, grows.callables,
    List.getElem?_append_left (by simpa using low)]

theorem properties_of (grows : m.Grows m' types callables properties) (indexed : m.Indexed)
    {d : TypeDecl} (there : d ∈ m.types) : m'.propertiesOf d = m.propertiesOf d := by
  refine List.filterMap_congr fun id listed => ?_
  obtain ⟨p, found, -⟩ := indexed.property_of_listed there listed
  have low := (Array.getElem?_eq_some_iff.mp found).1
  rw [property?, property?, ← Array.getElem?_toList, ← Array.getElem?_toList, grows.properties,
    List.getElem?_append_left (by simpa using low)]

/-- A type that was there is outlined as before. -/
theorem type_outline (grows : m.Grows m' types callables properties) (indexed : m.Indexed)
    (indexed' : m'.Indexed) {d : TypeDecl} (there : d ∈ m.types) :
    m'.typeOutline files d = m.typeOutline files d := by
  have housed := indexed.packed.types_housed d (Array.mem_toList_iff.mpr there)
  rw [typeOutline, typeOutline, grows.space_of indexed indexed' housed,
    grows.methods_of indexed there, grows.properties_of indexed there]

theorem function_outline (grows : m.Grows m' types callables properties) (indexed : m.Indexed)
    (indexed' : m'.Indexed) {c : Callable} (there : c ∈ m.callables)
    (function : c.isMethod = false) : m'.functionOutline files c = m.functionOutline files c := by
  rw [functionOutline, functionOutline, Filter.packageOf, Filter.packageOf]
  cases kind : c.kind with
  | method owner => simp [Callable.isMethod, Callable.owner, kind] at function
  | function k =>
    have housed := indexed.packed.functions_housed c (Array.mem_toList_iff.mpr there) k kind
    dsimp only [Option.elim_some]
    rw [grows.space_of indexed indexed' housed]

theorem type_outlines (grows : m.Grows m' types callables properties) (indexed : m.Indexed)
    (indexed' : m'.Indexed) :
    m'.typeOutlines files = m.typeOutlines files ++ types.map (m'.typeOutline files) := by
  rw [typeOutlines, grows.types, List.map_append, typeOutlines]
  refine congrArg (· ++ _) (List.map_congr_left fun d listed => ?_)
  exact grows.type_outline indexed indexed' (Array.mem_toList_iff.mp listed)

theorem function_outlines (grows : m.Grows m' types callables properties) (indexed : m.Indexed)
    (indexed' : m'.Indexed) :
    m'.functionOutlines files = m.functionOutlines files ++
      (callables.filter (!·.isMethod)).map (m'.functionOutline files) := by
  rw [functionOutlines, grows.callables, List.filter_append, List.map_append, functionOutlines]
  refine congrArg (· ++ _) (List.map_congr_left fun c listed => ?_)
  obtain ⟨there, function⟩ := List.mem_filter.mp listed
  exact grows.function_outline indexed indexed' (Array.mem_toList_iff.mp there) (by simpa using function)

end CodeModel.Grows

theorem SyntaxTree.outline_of_head {t : SyntaxTree} {files : FileTable} {entry : String × Nat}
    {head : Registration.TypeHead} (is : Registration.head? (t.kind entry.2) = some head) :
    t.functionOutline? files entry = none := by
  unfold functionOutline?
  cases kind : t.kind entry.2 with
  | function_ name byRef =>
    rw [kind] at is
    cases is
  | _ => rfl

namespace Registration

variable {r r' : Registration} {space : String} {i : Nat}

section Filled

variable {filled : Registration} {start decl : TypeDecl} {methods : List Callable}
  {properties : List Property}

theorem Filling.methods_found (filling : Filling r i start filled decl methods properties)
    (numbered : Numbered Callable.id filled.model.callables) :
    decl.methods.filterMap (fun id => filled.model.callables[id]?) = methods := by
  rw [filling.method_ids]
  refine numbered.find_each fun c listed => Array.mem_toList_iff.mp ?_
  rw [filling.callables]
  exact List.mem_append_right _ listed

theorem Filling.properties_found (filling : Filling r i start filled decl methods properties)
    (numbered : Numbered Property.id filled.model.properties) :
    decl.properties.filterMap (fun id => filled.model.properties[id]?) = properties := by
  rw [filling.property_ids]
  refine numbered.find_each fun p listed => Array.mem_toList_iff.mp ?_
  rw [filling.fields]
  exact List.mem_append_right _ listed

end Filled

/-- A declaration whose name is free adds its own outline. -/
theorem Entered.outlined (entered : Entered r space i r') (indexed : r.model.Indexed)
    (free : ¬ r.Taken i) (files : FileTable) : ∃ types callables properties,
      r.model.Grows r'.model types callables properties ∧
      types.map (r'.model.typeOutline files) =
        (r.tree.typeOutline? files (space, i)).toList ∧
      (callables.filter (!·.isMethod)).map (r'.model.functionOutline files) =
        (r.tree.functionOutline? files (space, i)).toList := by
  have indexed' := entered.indexed indexed
  cases entered with
  | leftOut taken => exact absurd taken free
  | @function packages table c p fresh housing id kind at_ =>
    have key := indexed'.space_of housing.lookup
    obtain ⟨byRef, is⟩ := at_.head
    have plain := is_method_of_function kind
    have no_type : r.tree.typeOutline? files (space, i) = none := by
      simp [SyntaxTree.typeOutline?, head_of_function is]
    refine ⟨[], [c], [], ⟨by simp, by simp, by simp, ?_⟩, by rw [no_type]; rfl, ?_⟩
    · exact fun name p known => housing.keeps known
    · have body : c.outline files =
          r.tree.callableOutline files c.qualifiedName .public_ i := by
        rw [Callable.outline, SyntaxTree.callableOutline, at_.node, at_.file, at_.body,
          Callable.visibility, at_.modifiers]
        rfl
      simp [SyntaxTree.functionOutline?, is, plain, CodeModel.functionOutline, Filter.packageOf,
        kind, key, at_.file, body]
  | @type packages table symbols start decl filled methods properties late fresh housing filling id
      at_ late_at members =>
    have key := indexed'.space_of housing.lookup
    have callables : filled.model.callables.toList = r.model.callables.toList ++ methods :=
      filling.callables
    have fields : filled.model.properties.toList = r.model.properties.toList ++ properties :=
      filling.fields
    obtain ⟨head, is, kind, name⟩ := at_.head
    obtain ⟨modifiers, parent, interfaces⟩ := at_.clauses head is
    refine ⟨[decl], methods, properties, ⟨by simp, callables, fields, ?_⟩, ?_, ?_⟩
    · exact fun name p known => housing.keeps known
    · have own_methods := filling.methods_found indexed'.callables_numbered
      have own_fields := filling.properties_found indexed'.properties_numbered
      have methods_outlined := members.methods files
      rw [← own_methods, name] at methods_outlined
      have fields_outlined := members.properties
      rw [← own_fields] at fields_outlined
      simp only [SyntaxTree.typeOutline?, is, Option.map_some, Option.toList_some,
        List.map_singleton, CodeModel.typeOutline, TypeDecl.isAbstract]
      rw [key, kind, modifiers, parent, interfaces, at_.file, at_.node, ← methods_outlined,
        ← fields_outlined, List.length_map, name]
      rfl
    · rw [filling.no_function, SyntaxTree.outline_of_head is]
      rfl

/-- A name is free if none that was outlined has its key. -/
theorem free_of_keys (indexed : r.model.Indexed) (files : FileTable) (space : String)
    (types : ∀ o ∈ r.tree.typeOutline? files (space, i),
      o.key ∉ (r.model.typeOutlines files).map TypeOutline.key)
    (functions : ∀ o ∈ r.tree.functionOutline? files (space, i),
      o.key ∉ (r.model.functionOutlines files).map FunctionOutline.key) : ¬ r.Taken i := by
  rintro (@⟨head, is, id, known⟩ | @⟨name, byRef, is, id, known⟩)
  · obtain ⟨d, found, key⟩ := indexed.type_of_row (mem_of_lookup known)
    have there := Array.mem_toList_iff.mpr (Array.mem_of_getElem? found)
    have outline := SyntaxTree.typeOutline?.eq_def r.tree files (space, i)
    rw [is] at outline
    refine types _ outline (List.mem_map.mpr ⟨_, List.mem_map_of_mem there, ?_⟩)
    exact key
  · obtain ⟨c, found, plain, key⟩ := indexed.function_of_row (mem_of_lookup known)
    have there := Array.mem_toList_iff.mpr (Array.mem_of_getElem? found)
    have kept : c ∈ r.model.callables.toList.filter (!·.isMethod) :=
      List.mem_filter.mpr ⟨there, by simp [plain]⟩
    have outline := SyntaxTree.functionOutline?.eq_def r.tree files (space, i)
    rw [is] at outline
    refine functions _ outline (List.mem_map.mpr ⟨_, List.mem_map_of_mem kept, ?_⟩)
    exact key

end Registration

/-- Keys of one list that are none of another, as long as no key is there twice. -/
theorem key_fresh {α : Type} {key : α → String} {before : List α} {new : Option α}
    (apart : ((before ++ new.toList).map key).Nodup) : ∀ o ∈ new, key o ∉ before.map key := by
  intro o is listed
  obtain rfl : new = some o := is
  rw [List.map_append, List.nodup_append] at apart
  exact apart.2.2 _ listed _ (by simp) rfl

section File

variable {m : CodeModel} {t : SyntaxTree} {files : FileTable} (indexed : m.Indexed)
  (types : ∀ d ∈ m.types, d.file ≠ t.file) (callables : ∀ c ∈ m.callables, c.file ≠ t.file)

include indexed types callables

/-- Declarations with free names add their outlines in order. -/
theorem entries_outlined (entries : List (String × Nat)) (apart : (entries.map (·.2)).Nodup)
    (declared : ∀ e ∈ entries, (t.kind e.2).declares = true)
    (type_keys : ((m.typeOutlines files ++ entries.filterMap (t.typeOutline? files)).map
      TypeOutline.key).Nodup)
    (function_keys : ((m.functionOutlines files ++
      entries.filterMap (t.functionOutline? files)).map FunctionOutline.key).Nodup) :
    let r := entries.foldl Registration.add ⟨m, [], t, []⟩
    r.model.typeOutlines files =
        m.typeOutlines files ++ entries.filterMap (t.typeOutline? files) ∧
      r.model.functionOutlines files =
        m.functionOutlines files ++ entries.filterMap (t.functionOutline? files) := by
  induction entries using List.reverseRecOn with
  | nil => exact ⟨(List.append_nil _).symm, (List.append_nil _).symm⟩
  | append_singleton entries entry ih =>
    obtain ⟨space, i⟩ := entry
    have single {α : Type} (f : String × Nat → Option α) :
        [(space, i)].filterMap f = (f (space, i)).toList := by
      cases found : f (space, i) <;> simp [found]
    rw [List.filterMap_append, single, ← List.append_assoc] at type_keys function_keys
    rw [List.map_append, List.nodup_append] at apart
    have declared' : ∀ e ∈ entries, (t.kind e.2).declares = true :=
      fun e listed => declared e (List.mem_append_left _ listed)
    have type_keys' := type_keys
    have function_keys' := function_keys
    rw [List.map_append, List.nodup_append] at type_keys' function_keys'
    obtain ⟨types_before, functions_before⟩ :=
      ih apart.1 declared' type_keys'.1 function_keys'.1
    have progress := progress_of_entries indexed types callables entries apart.1 declared'
    simp only [List.foldl_append, List.foldl_cons, List.foldl_nil, List.filterMap_append, single]
    generalize entries.foldl Registration.add ⟨m, [], t, []⟩ = r at *
    have declares : (r.tree.kind i).declares = true := by
      rw [progress.marked.kind]
      exact declared (space, i) (by simp)
    have same := progress.marked.sameText
    have file := progress.marked.file
    have type_outline : r.tree.typeOutline? files = t.typeOutline? files :=
      same.type_outline (by rw [file]) (by rw [file])
    have function_outline : r.tree.functionOutline? files = t.functionOutline? files :=
      same.function_outline (by rw [file]) (by rw [file])
    have free : ¬ r.Taken i := by
      refine Registration.free_of_keys progress.indexed files space ?_ ?_
      · rw [type_outline, types_before]
        exact key_fresh type_keys
      · rw [function_outline, functions_before]
        exact key_fresh function_keys
    have entered := Registration.add_entered r space i declares
    obtain ⟨types', callables', properties', grows, new_types, new_functions⟩ :=
      entered.outlined progress.indexed free files
    have indexed' := entered.indexed progress.indexed
    rw [grows.type_outlines progress.indexed indexed', new_types, type_outline, types_before,
      grows.function_outlines progress.indexed indexed', new_functions, function_outline,
      functions_before, List.append_assoc, List.append_assoc]
    exact ⟨rfl, rfl⟩

end File

theorem parse_renumbered (source : String) (file : Nat) :
    parse source file = (parse source 0).map fun t => { t with file } := by
  rw [parse, parse, parseTokens, parseTokens, parseTokens?, parseTokens?]
  cases Parser.compilationUnit (.initial (.ofSource source)) with
  | none => rfl
  | some result =>
    obtain ⟨outcome, s⟩ := result
    cases outcome with
    | error fatal => rfl
    | ok root =>
      dsimp only [Option.getD_some]
      split <;> rfl

namespace Added

/-- The number of a file has no part in what its text is read as. -/
theorem outcome_renumbered (call : Added) (file : Nat) :
    call.outcome file = (call.outcome 0).map fun t => { t with file } := by
  cases call with
  | source name text => exact parse_renumbered text file
  | bytes name content =>
    rw [outcome, outcome]
    cases decodeSource content with
    | error e => rfl
    | ok text => exact parse_renumbered text file

def tree? (call : Added) : Option SyntaxTree := (call.outcome 0).toOption

variable (call : Added)

def typeOutlines : List TypeOutline :=
  call.tree?.elim [] fun t => t.typeOutlines fun _ => some ⟨0, call.name, t, []⟩

def functionOutlines : List FunctionOutline :=
  call.tree?.elim [] fun t => t.functionOutlines fun _ => some ⟨0, call.name, t, []⟩

end Added

def FileTable.Lists (files : FileTable) (calls : List Added) : Prop :=
  ∀ (k : Nat) (call : Added) (t : SyntaxTree), calls[k]? = some call → call.outcome k = .ok t →
    ∃ f, files k = some f ∧ f.name = call.name ∧ t.Marked f.tree

theorem FileTable.Lists.outlines {files : FileTable} {calls : List Added}
    (lists : files.Lists calls) {k : Nat} {call : Added} {t : SyntaxTree}
    (at_ : calls[k]? = some call) (read : call.outcome k = .ok t) :
    t.typeOutlines files = call.typeOutlines ∧ t.functionOutlines files = call.functionOutlines := by
  obtain ⟨f, found, name, marked⟩ := lists k call t at_ read
  rw [call.outcome_renumbered] at read
  cases first : call.outcome 0 with
  | error errors =>
    rw [first] at read
    cases read
  | ok t₀ =>
    rw [first] at read
    cases read
    have tree : call.tree? = some t₀ := by
      rw [Added.tree?, first]
      rfl
    have same : t₀.SameText { t₀ with file := k } := ⟨rfl, rfl, rfl⟩
    rw [Added.typeOutlines, Added.functionOutlines, tree]
    apply same.outlines
    · simp [FileTable.nameOf, found, name]
    · funext body
      simp [FileTable.complexity, found, (same.trans marked.sameText).complexity]

/-- After any calls in which no key is declared twice, the types and functions of the model are
outlined as the files show them, in order. -/
theorem after_outlines {files : FileTable} (calls : List Added) (lists : files.Lists calls)
    (type_keys : ((calls.flatMap Added.typeOutlines).map TypeOutline.key).Nodup)
    (function_keys : ((calls.flatMap Added.functionOutlines).map FunctionOutline.key).Nodup) :
    (Assembly.after calls).model.typeOutlines files = calls.flatMap Added.typeOutlines ∧
      (Assembly.after calls).model.functionOutlines files =
        calls.flatMap Added.functionOutlines := by
  induction calls using List.reverseRecOn with
  | nil => exact ⟨rfl, rfl⟩
  | append_singleton calls call ih =>
    have kept := kept_after calls
    have count := kept.count
    have lists' : files.Lists calls := fun k call t at_ => lists k call t <| by
      rw [List.getElem?_append_left (List.getElem?_eq_some_iff.mp at_).1, at_]
    have last : (calls ++ [call])[calls.length]? = some call := by simp
    rw [List.flatMap_append, List.flatMap_singleton] at type_keys function_keys ⊢
    rw [List.flatMap_append, List.flatMap_singleton, Assembly.after_append]
    have type_keys' := type_keys
    have function_keys' := function_keys
    rw [List.map_append, List.nodup_append] at type_keys' function_keys'
    obtain ⟨types_before, functions_before⟩ := ih lists' type_keys'.1 function_keys'.1
    cases read : call.outcome calls.length with
    | error errors =>
      have none : call.tree? = none := by
        rw [call.outcome_renumbered] at read
        rw [Added.tree?]
        cases first : call.outcome 0 with
        | error => rfl
        | ok t =>
          rw [first] at read
          cases read
      rw [Assembly.add_rejected (count ▸ read), Added.typeOutlines, Added.functionOutlines, none]
      simpa using ⟨types_before, functions_before⟩
    | ok t =>
      obtain ⟨file, tree⟩ := Added.outcome_tree read
      obtain ⟨own_types, own_functions⟩ := lists.outlines last read
      rw [Assembly.add_accepted (count ▸ read)]
      rw [← types_before, ← own_types] at type_keys ⊢
      rw [← functions_before, ← own_functions] at function_keys ⊢
      refine entries_outlined kept.indexed ?_ ?_ _
        (SyntaxTree.declarations_nodup tree t.root "") ?_ type_keys function_keys
      · exact fun d member => kept.type_elsewhere member file
      · exact fun c member => kept.callable_elsewhere member file
      · exact fun e listed => ((SyntaxTree.mem_declarations tree.below e t.root "").mp listed).2

end PhpAnalyser
