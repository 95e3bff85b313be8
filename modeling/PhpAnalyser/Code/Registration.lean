import PhpAnalyser.Code.Diagnostic
import PhpAnalyser.Code.Model
/-!
How the declarations of a file enter the model. They are found in all statements, but not in the
bodies of functions, methods and closures.
-/
namespace PhpAnalyser

namespace SyntaxTree

variable (t : SyntaxTree)

def declarations (package : String) (i : Nat) : List (String × Nat) :=
  let below (package : String) :=
    (t.children i).flatMap fun child => if child < i then declarations package child else []
  match t.kind i with
  | .namespace_ name => below name
  | .class_ .. | .interface_ .. | .trait_ .. | .function_ .. => [(package, i)]
  | .method .. | .closure .. => []
  | _ => below package
  termination_by i

def docComment (i : Nat) : Option String := (t.node? i).bind (·.docComment)

def spanOf (i : Nat) : Span := (t.node? i).elim .origin (·.span)

def parameter? (i : Nat) : Option Parameter :=
  match t.kind i with
  | .formalParameter name typeHint byRef variadic =>
    some ⟨name, typeHint, byRef, variadic, !(t.children i).isEmpty⟩
  | _ => none

def parametersOf (i : Nat) : List Parameter :=
  (t.children i).flatMap fun child =>
    match t.kind child with
    | .formalParameters => (t.children child).filterMap t.parameter?
    | _ => []

def bodyOf (i : Nat) : Option Nat := (t.children i).reverse.find? fun child => t.kind child = .scope

def declaratorName? (i : Nat) : Option String :=
  match t.kind i with
  | .constantDeclarator name => some name
  | _ => none

def precedence? (i : Nat) : Option PrecedenceRule :=
  match t.kind i with
  | .traitAdaptation (some traitName) method (.precedence excluded) =>
    some ⟨.ofName traitName, method, excluded.map .ofName⟩
  | _ => none

def rename? (i : Nat) : Option RenameRule :=
  match t.kind i with
  | .traitAdaptation traitName method (.rename visibility newName) =>
    some ⟨traitName.map .ofName, method, visibility, newName⟩
  | _ => none

def traitUseAt (i : Nat) (traits : List String) : TraitUse :=
  ⟨i, traits.map .ofName, (t.children i).filterMap t.precedence?,
    (t.children i).filterMap t.rename?⟩

/-- The late-bound nodes in a type that name it, other than through `parent`. -/
def lateBoundTo (i : Nat) (qualifiedName : String) : List Nat :=
  (t.descendants i).filter fun d =>
    match t.kind d with
    | .lateBound reference =>
      reference.keyword ≠ .parent_ && reference.target.any (sameAsciiCase qualifiedName)
    | _ => false

end SyntaxTree

structure Registration where
  model : CodeModel
  diagnostics : List Diagnostic
  tree : SyntaxTree
  primed : List (Nat × Nat)

namespace Registration

/-- The package of a namespace, which is made when it is first needed. -/
def withPackage (r : Registration) (space : String) : Registration × Nat :=
  let name := if space = "" then globalPackage else space
  match r.model.symbols.package? name with
  | some id => (r, id)
  | none =>
    let id := r.model.packages.size
    ({ r with model :=
        { r.model with
          packages := r.model.packages.push ⟨id, name, [], []⟩
          symbols := r.model.symbols.addPackage name id } }, id)

def duplicate (r : Registration) (what name : String) (i : Nat) : Registration :=
  let found := Diagnostic.duplicate what name r.tree.file (r.tree.spanOf i)
  { r with diagnostics := r.diagnostics ++ [found] }

def callable (r : Registration) (kind : CallableKind) (name qualifiedName : String) (i : Nat)
    (modifiers : Modifiers) : Callable :=
  ⟨r.model.callables.size, kind, name, qualifiedName, r.tree.file, i, modifiers,
    r.tree.parametersOf i, r.tree.bodyOf i, r.tree.docComment i⟩

def addMethod (r : Registration) (decl : TypeDecl) (i : Nat) (name : String)
    (modifiers : Modifiers) : Registration × TypeDecl :=
  let id := r.model.callables.size
  let method := r.callable (.method decl.id) name (decl.qualifiedName ++ "::" ++ name) i modifiers
  ({ r with model := { r.model with callables := r.model.callables.push method } },
    { decl with methods := decl.methods ++ [id], members := decl.members ++ [.method id] })

def addProperty (modifiers : Modifiers) (entry : Registration × TypeDecl) (i : Nat) :
    Registration × TypeDecl :=
  let (r, decl) := entry
  match r.tree.kind i with
  | .property name =>
    let id := r.model.properties.size
    let property : Property := ⟨id, name, decl.id, i, modifiers⟩
    ({ r with model := { r.model with properties := r.model.properties.push property } },
      { decl with
        properties := decl.properties ++ [id]
        members := decl.members ++ [.property id] })
  | _ => (r, decl)

def addMember (entry : Registration × TypeDecl) (i : Nat) : Registration × TypeDecl :=
  let (r, decl) := entry
  match r.tree.kind i with
  | .method name modifiers _ => r.addMethod decl i name modifiers
  | .propertyDeclaration modifiers => (r.tree.children i).foldl (addProperty modifiers) (r, decl)
  | .constantDeclaration =>
    let names := (r.tree.children i).filterMap r.tree.declaratorName?
    (r, { decl with constants := decl.constants ++ names })
  | .traitUse traits => (r, { decl with uses := decl.uses ++ [r.tree.traitUseAt i traits] })
  | _ => (r, decl)

structure TypeHead where
  kind : TypeKind
  name : String
  modifiers : Modifiers
  parent : Option String
  interfaces : List String

def head? : NodeKind → Option TypeHead
  | .class_ name modifiers parent interfaces => some ⟨.class_, name, modifiers, parent, interfaces⟩
  | .interface_ name parents => some ⟨.interface_, name, .none, none, parents⟩
  | .trait_ name => some ⟨.trait_, name, .none, none, []⟩
  | _ => none

def newType (r : Registration) (head : TypeHead) (package i : Nat) : TypeDecl where
  id := r.model.types.size
  kind := head.kind
  name := lastSegment head.name
  qualifiedName := head.name
  package := package
  file := r.tree.file
  node := i
  modifiers := head.modifiers
  parent := head.parent.map .ofName
  interfaces := head.interfaces.map .ofName
  members := []
  methods := []
  properties := []
  constants := []
  uses := []
  docComment := r.tree.docComment i
  composition := .pending

/-- A type whose name is taken is reported and left out, with all its members. -/
def addType (r : Registration) (space : String) (i : Nat) (head : TypeHead) : Registration :=
  if (r.model.symbols.type? head.name).isSome then r.duplicate "Type" head.name i
  else
    let id := r.model.types.size
    let named := { r with model :=
      { r.model with symbols := r.model.symbols.addType head.name id } }
    let (placed, package) := named.withPackage space
    let (filled, decl) :=
      (placed.tree.children i).foldl addMember (placed, placed.newType head package i)
    let late := (filled.tree.lateBoundTo i head.name).map (·, id)
    { filled with
      tree := filled.tree.setMetadata i "type_id" (.int id)
      primed := filled.primed ++ late
      model := { filled.model with
        types := filled.model.types.push decl
        packages := filled.model.packages.modify package fun p =>
          { p with types := p.types ++ [id] } } }

def addFunction (r : Registration) (space : String) (i : Nat) (name : String) : Registration :=
  if (r.model.symbols.function? name).isSome then r.duplicate "Function" name i
  else
    let id := r.model.callables.size
    let named := { r with model :=
      { r.model with symbols := r.model.symbols.addFunction name id } }
    let (placed, package) := named.withPackage space
    let function := placed.callable (.function package) (lastSegment name) name i .none
    { placed with model := { placed.model with
        callables := placed.model.callables.push function
        packages := placed.model.packages.modify package fun p =>
          { p with functions := p.functions ++ [id] } } }

def add (r : Registration) (entry : String × Nat) : Registration :=
  let kind := r.tree.kind entry.2
  match kind, head? kind with
  | .function_ name _, _ => r.addFunction entry.1 entry.2 name
  | _, some head => r.addType entry.1 entry.2 head
  | _, none => r

end Registration

def CodeModel.register (m : CodeModel) (name : String) (t : SyntaxTree) :
    CodeModel × List Diagnostic :=
  let r := (t.declarations "" t.root).foldl Registration.add ⟨m, [], t, []⟩
  ({ r.model with files := r.model.files ++ [⟨t.file, name, r.tree, r.primed⟩] }, r.diagnostics)

end PhpAnalyser
