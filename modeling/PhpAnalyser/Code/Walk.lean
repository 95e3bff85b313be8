import PhpAnalyser.Code.Model
/-!
The declarations of a model in order: each package, its types with their members, its functions.
-/
namespace PhpAnalyser

inductive Entity where
  | package (p : Package)
  | type (t : TypeDecl)
  | callable (c : Callable)
  | property (p : Property)

namespace CodeModel

variable (m : CodeModel)

def typesOf (p : Package) : List TypeDecl := p.types.filterMap m.type?

def functionsOf (p : Package) : List Callable := p.functions.filterMap m.callable?

def methodsOf (t : TypeDecl) : List Callable := t.methods.filterMap m.callable?

def member? : MemberId → Option Entity
  | .method id => (m.callable? id).map .callable
  | .property id => (m.property? id).map .property

def membersOf (t : TypeDecl) : List Entity := t.members.filterMap m.member?

def walkType (passes : Entity → Bool) (t : TypeDecl) : List Entity :=
  .type t :: if passes (.type t) then [] else m.membersOf t

def walkPackage (passes : Entity → Bool) (p : Package) : List Entity :=
  .package p ::
    if passes (.package p) then []
    else (m.typesOf p).flatMap (m.walkType passes) ++ (m.functionsOf p).map .callable

/-- All declarations except those inside the ones that `passes` holds of. -/
def walk (passes : Entity → Bool) : List Entity :=
  m.packages.toList.flatMap (m.walkPackage passes)

end CodeModel

end PhpAnalyser
