import PhpAnalyser.Proofs.Code.Index
import PhpAnalyser.Proofs.Code.Outline
/-!
What one declaration of a file does to the model: it is left out with a warning, or it enters with
a package and, if it is a type, with its members.
-/
namespace PhpAnalyser

def MemberId.method? : MemberId → Option Nat
  | method id => some id
  | property _ => none

def MemberId.property? : MemberId → Option Nat
  | method _ => none
  | property id => some id

def SyntaxTree.duplicateAt (t : SyntaxTree) (i : Nat) : Diagnostic :=
  match t.kind i with
  | .function_ name _ => .duplicate "Function" name t.file (t.spanOf i)
  | kind => .duplicate "Type" ((Registration.head? kind).elim "" (·.name)) t.file (t.spanOf i)

structure UseAt (t : SyntaxTree) (i : Nat) (u : TraitUse) : Prop where
  child : u.node ∈ t.children i
  read : ∃ traits, u = t.traitUseAt u.node traits

structure TypeAt (t : SyntaxTree) (i : Nat) (decl : TypeDecl) : Prop where
  node : decl.node = i
  file : decl.file = t.file
  head : ∃ head, Registration.head? (t.kind i) = some head ∧ decl.kind = head.kind ∧
    decl.qualifiedName = head.name
  clauses : ∀ head, Registration.head? (t.kind i) = some head → decl.modifiers = head.modifiers ∧
    decl.parent = head.parent.map .ofName ∧ decl.interfaces = head.interfaces.map .ofName
  uses : ∀ u ∈ decl.uses, UseAt t i u

structure FunctionAt (t : SyntaxTree) (i : Nat) (c : Callable) : Prop where
  node : c.node = i
  file : c.file = t.file
  head : ∃ byRef, t.kind i = .function_ c.qualifiedName byRef
  modifiers : c.modifiers = .none
  body : c.body = t.bodyOf i

structure MethodAt (t : SyntaxTree) (i owner : Nat) (c : Callable) : Prop where
  kind : c.kind = .method owner
  child : c.node ∈ t.children i
  file : c.file = t.file
  head : ∃ byRef, t.kind c.node = .method c.name c.modifiers byRef
  body : c.body = t.bodyOf c.node

structure PropertyAt (t : SyntaxTree) (i owner : Nat) (p : Property) : Prop where
  owned : p.owner = owner
  child : ∃ d ∈ t.children i, p.node ∈ t.children d
  head : t.kind p.node = .property p.name

structure MembersAt (t : SyntaxTree) (i : Nat) (decl : TypeDecl) (methods : List Callable)
    (properties : List Property) : Prop where
  methods : ∀ files, methods.map (·.outline files) =
    (t.children i).filterMap (t.methodOutline? files decl.qualifiedName)
  properties : properties.map Property.outline = (t.children i).flatMap t.propertyOutlines

inductive Housing (packages : Array Package) (table : List (String × Nat)) (space : String) :
    Array Package → List (String × Nat) → Nat → Prop
  | found {p : Nat} (known : table.lookup (symbolKey (packageName space)) = some p) :
      Housing packages table space packages table p
  | made (unknown : table.lookup (symbolKey (packageName space)) = none) :
      Housing packages table space (packages.push ⟨packages.size, packageName space, [], []⟩)
        (SymbolTable.addFirst table (packageName space) packages.size) packages.size

namespace Registration

def placed (r : Registration) (packages : Array Package) (symbols : SymbolTable) : Registration :=
  { r with model := { r.model with packages, symbols } }

theorem with_package_housing (r : Registration) (space : String) :
    ∃ packages table p, Housing r.model.packages r.model.symbols.packages space packages table p ∧
      r.withPackage space =
        (r.placed packages { r.model.symbols with packages := table }, p) := by
  unfold withPackage SymbolTable.package?
  cases known : r.model.symbols.packages.lookup (symbolKey (packageName space)) with
  | some p =>
    unfold packageName at known
    simp only [known]
    exact ⟨_, _, _, .found known, rfl⟩
  | none =>
    have made : Housing r.model.packages r.model.symbols.packages space _ _ _ := .made known
    unfold packageName at known
    simp only [known]
    exact ⟨_, _, _, made, rfl⟩

structure Filling (r : Registration) (i : Nat) (start : TypeDecl) (filled : Registration)
    (decl : TypeDecl) (methods : List Callable) (properties : List Property) : Prop where
  rest : filled = { r with model := { r.model with
    callables := filled.model.callables, properties := filled.model.properties } }
  head : decl = { start with
    members := decl.members, methods := decl.methods, properties := decl.properties,
    constants := decl.constants, uses := decl.uses }
  callables : filled.model.callables.toList = r.model.callables.toList ++ methods
  fields : filled.model.properties.toList = r.model.properties.toList ++ properties
  callables_numbered : Numbered Callable.id r.model.callables →
    Numbered Callable.id filled.model.callables
  fields_numbered : Numbered Property.id r.model.properties →
    Numbered Property.id filled.model.properties
  method_ids : decl.methods = methods.map (·.id)
  property_ids : decl.properties = properties.map (·.id)
  member_methods : decl.members.filterMap MemberId.method? = decl.methods
  member_properties : decl.members.filterMap MemberId.property? = decl.properties
  methods_at : ∀ c ∈ methods, MethodAt r.tree i start.id c
  properties_at : ∀ p ∈ properties, PropertyAt r.tree i start.id p
  uses_at : ∀ u ∈ decl.uses, UseAt r.tree i u

namespace Filling

variable {r filled : Registration} {i : Nat} {start decl : TypeDecl} {methods : List Callable}
  {properties : List Property}

theorem tree (filling : Filling r i start filled decl methods properties) :
    filled.tree = r.tree := by
  rw [filling.rest]

theorem id (filling : Filling r i start filled decl methods properties) : decl.id = start.id := by
  rw [filling.head]

theorem method (filling : Filling r i start filled decl methods properties) {child : Nat}
    (member : child ∈ r.tree.children i) {name : String} {modifiers : Modifiers} {byRef : Bool}
    (kind : r.tree.kind child = .method name modifiers byRef) :
    Filling r i start (filled.addMethod decl child name modifiers).1
      (filled.addMethod decl child name modifiers).2
      (methods ++ [filled.callable (.method decl.id) name
        (decl.qualifiedName ++ "::" ++ name) child modifiers]) properties :=
  { filling with
    rest := by
      have rest := filling.rest
      simp only [addMethod]
      rw [rest]
    head := by
      have head := filling.head
      simp only [addMethod]
      rw [head]
    callables := by simp [addMethod, filling.callables]
    callables_numbered := fun numbered => (filling.callables_numbered numbered).push rfl
    method_ids := by simp [addMethod, callable, filling.method_ids]
    member_methods := by simp [addMethod, filling.member_methods, MemberId.method?]
    member_properties := by simp [addMethod, filling.member_properties, MemberId.property?]
    methods_at := by
      intro c listed
      rcases List.mem_append.mp listed with old | new
      · exact filling.methods_at c old
      · obtain rfl := List.mem_singleton.mp new
        rw [← filling.tree] at member kind ⊢
        exact ⟨by rw [← filling.id]; rfl, member, rfl, ⟨byRef, kind⟩, rfl⟩ }

theorem property (filling : Filling r i start filled decl methods properties) {d child : Nat}
    (inner : d ∈ r.tree.children i) (member : child ∈ r.tree.children d) (modifiers : Modifiers) :
    ∃ properties', Filling r i start (addProperty modifiers (filled, decl) child).1
      (addProperty modifiers (filled, decl) child).2 methods properties' := by
  simp only [addProperty, filling.tree]
  split
  · rename_i name kind
    refine ⟨properties ++ [⟨filled.model.properties.size, name, decl.id, child, modifiers⟩], ?_⟩
    exact { filling with
      rest := by
        have rest := filling.rest
        simp only
        rw [rest]
      head := by
        have head := filling.head
        simp only
        rw [head]
      fields := by simp [filling.fields]
      fields_numbered := fun numbered => (filling.fields_numbered numbered).push rfl
      property_ids := by simp [filling.property_ids]
      member_methods := by simp [filling.member_methods, MemberId.method?]
      member_properties := by simp [filling.member_properties, MemberId.property?]
      properties_at := by
        intro p listed
        rcases List.mem_append.mp listed with old | new
        · exact filling.properties_at p old
        · obtain rfl := List.mem_singleton.mp new
          exact ⟨filling.id, ⟨d, inner, member⟩, kind⟩ }
  · exact ⟨properties, filling⟩

theorem constants (filling : Filling r i start filled decl methods properties)
    (names : List String) :
    Filling r i start filled { decl with constants := decl.constants ++ names } methods
      properties :=
  { filling with
    head := by
      have head := filling.head
      simp only
      rw [head] }

theorem traitUse (filling : Filling r i start filled decl methods properties) {child : Nat}
    (member : child ∈ r.tree.children i) (traits : List String) :
    Filling r i start filled { decl with uses := decl.uses ++ [r.tree.traitUseAt child traits] }
      methods properties :=
  { filling with
    head := by
      have head := filling.head
      simp only
      rw [head]
    uses_at := by
      intro u listed
      rcases List.mem_append.mp listed with old | new
      · exact filling.uses_at u old
      · obtain rfl := List.mem_singleton.mp new
        exact ⟨member, traits, rfl⟩ }

theorem step (filling : Filling r i start filled decl methods properties) {child : Nat}
    (member : child ∈ r.tree.children i) :
    ∃ methods' properties', Filling r i start (addMember (filled, decl) child).1
      (addMember (filled, decl) child).2 methods' properties' := by
  simp only [addMember, filling.tree]
  split
  · rename_i kind
    exact ⟨_, _, filling.method member kind⟩
  · refine ⟨methods, List.foldlRecOn
      (motive := fun e : Registration × TypeDecl =>
        ∃ ps, Filling r i start e.1 e.2 methods ps) _ _ ⟨properties, filling⟩ ?_⟩
    intro e reached d inside
    obtain ⟨ps, filling⟩ := reached
    exact filling.property member inside _
  · exact ⟨_, _, filling.constants _⟩
  · exact ⟨_, _, filling.traitUse member _⟩
  · exact ⟨_, _, filling⟩

end Filling

/-- The members of a type that has none yet. -/
theorem filling_of_members (r : Registration) (head : TypeHead) (package i : Nat) :
    ∃ methods properties, Filling r i (r.newType head package i)
      ((r.tree.children i).foldl addMember (r, r.newType head package i)).1
      ((r.tree.children i).foldl addMember (r, r.newType head package i)).2 methods properties ∧
      MembersAt r.tree i
        ((r.tree.children i).foldl addMember (r, r.newType head package i)).2 methods
        properties := by
  have filled : ∃ methods properties, Filling r i (r.newType head package i)
      ((r.tree.children i).foldl addMember (r, r.newType head package i)).1
      ((r.tree.children i).foldl addMember (r, r.newType head package i)).2 methods properties := by
    refine List.foldlRecOn (motive := fun e : Registration × TypeDecl =>
      ∃ cs ps, Filling r i _ e.1 e.2 cs ps) _ _ ⟨[], [], ?_⟩ ?_
    · constructor <;> simp [newType]
    · intro e reached child member
      obtain ⟨cs, ps, filling⟩ := reached
      exact filling.step member
  obtain ⟨methods, properties, filling⟩ := filled
  refine ⟨methods, properties, filling, fun files => ?_, ?_⟩
  · have outlined := members_outlined files (r.tree.children i)
      (r, r.newType head package i)
    have listed := outlined.methods
    rw [filling.callables, List.map_append, ← outlined.name] at listed
    exact List.append_cancel_left listed
  · have listed := (members_outlined (fun _ => none) (r.tree.children i)
      (r, r.newType head package i)).properties
    rw [filling.fields, List.map_append] at listed
    exact List.append_cancel_left listed

inductive Taken (r : Registration) (i : Nat) : Prop
  | type {head : TypeHead} (is : head? (r.tree.kind i) = some head) {id : Nat}
      (known : r.model.symbols.type? head.name = some id)
  | function {name : String} {byRef : Bool} (is : r.tree.kind i = .function_ name byRef) {id : Nat}
      (known : r.model.symbols.function? name = some id)

/-- What a declaration does: nothing but a warning, or it enters the model. -/
inductive Entered (r : Registration) (space : String) (i : Nat) : Registration → Prop
  | leftOut (taken : r.Taken i) :
      Entered r space i { r with diagnostics := r.diagnostics ++ [r.tree.duplicateAt i] }
  | type {packages : Array Package} {table : List (String × Nat)} {symbols : SymbolTable}
      {start decl : TypeDecl} {filled : Registration} {methods : List Callable}
      {properties : List Property} {late : List (Nat × Nat)}
      (fresh : r.model.symbols.type? decl.qualifiedName = none)
      (housing : Housing r.model.packages r.model.symbols.packages space packages table
        decl.package)
      (filling : Filling (r.placed packages symbols) i start filled decl methods properties)
      (id : decl.id = r.model.types.size) (at_ : TypeAt r.tree i decl)
      (late_at : ∀ entry ∈ late,
        entry.1 ∈ r.tree.lateBoundTo i decl.qualifiedName ∧ entry.2 = decl.id)
      (members : MembersAt r.tree i decl methods properties) :
      Entered r space i
        { model :=
            { files := r.model.files
              packages := packages.modify decl.package fun p =>
                { p with types := p.types ++ [decl.id] }
              types := r.model.types.push decl
              callables := filled.model.callables
              properties := filled.model.properties
              symbols := { r.model.symbols.addType decl.qualifiedName decl.id with
                packages := table } }
          diagnostics := r.diagnostics
          tree := r.tree.setMetadata i "type_id" (.int decl.id)
          primed := r.primed ++ late }
  | function {packages : Array Package} {table : List (String × Nat)} {c : Callable} {p : Nat}
      (fresh : r.model.symbols.function? c.qualifiedName = none)
      (housing : Housing r.model.packages r.model.symbols.packages space packages table p)
      (id : c.id = r.model.callables.size) (kind : c.kind = .function p)
      (at_ : FunctionAt r.tree i c) :
      Entered r space i { r with model := { r.model with
        packages := packages.modify p fun p => { p with functions := p.functions ++ [c.id] }
        callables := r.model.callables.push c
        symbols := { r.model.symbols.addFunction c.qualifiedName c.id with packages := table } } }

theorem head_of_function {kind : NodeKind} {name : String} {byRef : Bool}
    (function : kind = .function_ name byRef) : head? kind = none := by
  rw [function]
  rfl

theorem duplicate_at_head {t : SyntaxTree} {i : Nat} {head : TypeHead}
    (is : head? (t.kind i) = some head) :
    t.duplicateAt i = .duplicate "Type" head.name t.file (t.spanOf i) := by
  unfold SyntaxTree.duplicateAt
  split
  · rename_i function
    rw [head_of_function function] at is
    cases is
  · rw [is]
    rfl

/-- A type enters with the members it was filled with. -/
theorem Filling.entered {r filled : Registration} {space : String} {i p : Nat} {head : TypeHead}
    {packages : Array Package} {table : List (String × Nat)} {symbols : SymbolTable}
    {decl : TypeDecl} {methods : List Callable} {properties : List Property}
    (filling : Filling (r.placed packages symbols) i
      ((r.placed packages symbols).newType head p i) filled decl methods properties)
    (members : MembersAt r.tree i decl methods properties) (is : head? (r.tree.kind i) = some head)
    (fresh : r.model.symbols.type? head.name = none)
    (housing : Housing r.model.packages r.model.symbols.packages space packages table p)
    (tables : symbols =
      { r.model.symbols.addType head.name r.model.types.size with packages := table }) :
    Entered r space i { filled with
      tree := filled.tree.setMetadata i "type_id" (.int r.model.types.size)
      primed := filled.primed ++ (filled.tree.lateBoundTo i head.name).map (·, r.model.types.size)
      model := { filled.model with
        types := filled.model.types.push decl
        packages := filled.model.packages.modify p fun p =>
          { p with types := p.types ++ [r.model.types.size] } } } := by
  have rest := filling.rest
  have start := filling.head
  have id : decl.id = r.model.types.size := by
    rw [start]
    rfl
  have package : decl.package = p := by
    rw [start]
    rfl
  have name : decl.qualifiedName = head.name := by
    rw [start]
    rfl
  have at_ : TypeAt r.tree i decl := by
    refine ⟨?_, ?_, ⟨head, is, ?_, name⟩, fun other same => ?_, filling.uses_at⟩
    case refine_4 =>
      obtain rfl := Option.some.inj (is.symm.trans same)
      rw [start]
      exact ⟨rfl, rfl, rfl⟩
    all_goals
      rw [start]
      rfl
  have late : ∀ entry ∈ (r.tree.lateBoundTo i decl.qualifiedName).map (·, decl.id),
      entry.1 ∈ r.tree.lateBoundTo i decl.qualifiedName ∧ entry.2 = decl.id := by
    intro entry listed
    obtain ⟨d, found, rfl⟩ := List.mem_map.mp listed
    exact ⟨found, rfl⟩
  subst package
  rw [← name] at fresh
  have entered := Entered.type fresh housing filling id at_ late members
  rw [id, name] at entered
  rw [rest, tables]
  exact entered

theorem add_type_entered (r : Registration) (space : String) (i : Nat) {head : TypeHead}
    (is : head? (r.tree.kind i) = some head) : Entered r space i (r.addType space i head) := by
  unfold addType
  split
  · rename_i taken
    obtain ⟨id, known⟩ := Option.isSome_iff_exists.mp taken
    unfold duplicate
    rw [← duplicate_at_head is]
    exact .leftOut (.type is known)
  rename_i fresh
  rw [Option.not_isSome_iff_eq_none] at fresh
  obtain ⟨packages, table, p, housing, placed⟩ := with_package_housing (r.placed r.model.packages
    (r.model.symbols.addType head.name r.model.types.size)) space
  unfold Registration.placed at placed
  simp only [placed]
  obtain ⟨methods, properties, filling, members⟩ := filling_of_members (r.placed packages
    { r.model.symbols.addType head.name r.model.types.size with packages := table }) head p i
  exact filling.entered members is fresh housing rfl

theorem add_function_entered (r : Registration) (space : String) (i : Nat) {name : String}
    {byRef : Bool} (is : r.tree.kind i = .function_ name byRef) :
    Entered r space i (r.addFunction space i name) := by
  unfold addFunction
  split
  · rename_i taken
    obtain ⟨id, known⟩ := Option.isSome_iff_exists.mp taken
    have warning : r.tree.duplicateAt i =
        .duplicate "Function" name r.tree.file (r.tree.spanOf i) := by
      simp [SyntaxTree.duplicateAt, is]
    unfold duplicate
    rw [← warning]
    exact .leftOut (.function is known)
  · rename_i fresh
    rw [Option.not_isSome_iff_eq_none] at fresh
    obtain ⟨packages, table, p, housing, placed⟩ := with_package_housing
      (r.placed r.model.packages (r.model.symbols.addFunction name r.model.callables.size)) space
    unfold Registration.placed at placed
    simp only [placed]
    exact .function (c := r.callable (.function p) (lastSegment name) name i .none) fresh housing
      rfl rfl ⟨rfl, rfl, ⟨byRef, is⟩, rfl, rfl⟩

theorem add_entered (r : Registration) (space : String) (i : Nat)
    (declares : (r.tree.kind i).declares = true) : Entered r space i (r.add (space, i)) := by
  simp only [add]
  split
  · rename_i is
    exact add_function_entered r space i is
  · rename_i head is _
    exact add_type_entered r space i is
  · rename_i other none
    cases kind : r.tree.kind i <;> simp_all [NodeKind.declares, head?]

end Registration

end PhpAnalyser
