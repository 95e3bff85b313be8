import PhpAnalyser.Code.MethodTable
import PhpAnalyser.Code.Symbol
import PhpAnalyser.Syntax.Tree
/-!
The declarations of a run: packages, types with their members, and functions. The id of each is
its place in the order of declaration.
-/
namespace PhpAnalyser

def globalPackage : String := "+global"

/-- What metrics are measured of: a package, or the declaration at a node of a file. -/
inductive EntityId where
  | package (id : Nat)
  | node (file index : Nat)
  deriving DecidableEq, Repr

structure SourceFile where
  id : Nat
  name : String
  tree : SyntaxTree
  /-- The late-bound nodes that stand for the type around them, with its id. -/
  primed : List (Nat × Nat)
  deriving DecidableEq, Repr

/-- A late-bound node as it stands when its file has been read. -/
def SourceFile.lateReference (f : SourceFile) (i : Nat) (reference : LateBound) : LateReference :=
  ⟨reference, (f.primed.lookup i).map .declared⟩

structure Package where
  id : Nat
  name : String
  types : List Nat
  functions : List Nat
  deriving DecidableEq, Repr

inductive TypeKind where
  | class_
  | interface_
  | trait_
  deriving DecidableEq, Repr

inductive MemberId where
  | method (id : Nat)
  | property (id : Nat)
  deriving DecidableEq, Repr

structure PrecedenceRule where
  traitName : TypeReference
  method : String
  excluded : List TypeReference
  deriving DecidableEq, Repr

structure RenameRule where
  traitName : Option TypeReference
  method : String
  visibility : Option Visibility
  newName : Option String
  deriving DecidableEq, Repr

structure TraitUse where
  node : Nat
  traits : List TypeReference
  precedences : List PrecedenceRule
  renames : List RenameRule
  deriving DecidableEq, Repr

structure TypeDecl where
  id : Nat
  kind : TypeKind
  name : String
  qualifiedName : String
  package : Nat
  file : Nat
  node : Nat
  modifiers : Modifiers
  parent : Option TypeReference
  interfaces : List TypeReference
  members : List MemberId
  methods : List Nat
  properties : List Nat
  constants : List String
  uses : List TraitUse
  docComment : Option String
  composition : Composition
  deriving DecidableEq, Repr

namespace TypeDecl

def isAbstract (t : TypeDecl) : Bool := t.kind ≠ .class_ || t.modifiers.isAbstract

def entity (t : TypeDecl) : EntityId := .node t.file t.node

def methodTable (t : TypeDecl) : Option MethodTable := t.composition.table?

end TypeDecl

structure Parameter where
  name : String
  typeHint : Option String
  byRef : Bool
  variadic : Bool
  hasDefault : Bool
  deriving DecidableEq, Repr

inductive CallableKind where
  | function (package : Nat)
  | method (owner : Nat)
  deriving DecidableEq, Repr

structure Callable where
  id : Nat
  kind : CallableKind
  name : String
  qualifiedName : String
  file : Nat
  node : Nat
  modifiers : Modifiers
  parameters : List Parameter
  body : Option Nat
  docComment : Option String
  deriving DecidableEq, Repr

namespace Callable

def owner (c : Callable) : Option Nat :=
  match c.kind with
  | .method owner => some owner
  | .function _ => none

def isMethod (c : Callable) : Bool := c.owner.isSome

def visibility (c : Callable) : Visibility := c.modifiers.effective

def isAbstract (c : Callable) : Bool := c.modifiers.isAbstract || c.body.isNone

def entity (c : Callable) : EntityId := .node c.file c.node

end Callable

structure Property where
  id : Nat
  name : String
  owner : Nat
  node : Nat
  modifiers : Modifiers
  deriving DecidableEq, Repr

def Property.visibility (p : Property) : Visibility := p.modifiers.effective

structure CodeModel where
  files : List SourceFile
  packages : Array Package
  types : Array TypeDecl
  callables : Array Callable
  properties : Array Property
  symbols : SymbolTable
  deriving DecidableEq, Repr

namespace CodeModel

def empty : CodeModel := ⟨[], #[], #[], #[], #[], .empty⟩

variable (m : CodeModel)

def package? (id : Nat) : Option Package := m.packages[id]?

def type? (id : Nat) : Option TypeDecl := m.types[id]?

def callable? (id : Nat) : Option Callable := m.callables[id]?

def property? (id : Nat) : Option Property := m.properties[id]?

def file? (id : Nat) : Option SourceFile := m.files.find? (·.id = id)

def tree? (file : Nat) : Option SyntaxTree := (m.file? file).map (·.tree)

def resolve (r : TypeReference) : Option TypeDecl := (r.resolve m.symbols).id?.bind m.type?

def parentOf (t : TypeDecl) : Option TypeDecl := t.parent.bind m.resolve

end CodeModel

end PhpAnalyser
