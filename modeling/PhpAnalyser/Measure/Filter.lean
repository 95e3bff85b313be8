import PhpAnalyser.Code.Walk
/-!
Filters that leave packages and files out of a measurement.
-/
namespace PhpAnalyser

structure Filter where
  packages : List String
  paths : List String
  deriving DecidableEq, Repr

/-- A pattern that ends in a star stands for all names with the same start. Both are compared
in lowercase. -/
def matchesPackage (pattern name : String) : Bool :=
  match (lowercase pattern).toList.reverse with
  | '*' :: start => start.reverse.isPrefixOf (lowercase name).toList
  | _ => lowercase name == lowercase pattern

namespace Filter

def all : Filter := ⟨[], []⟩

def isEmpty (f : Filter) : Bool := f.packages.isEmpty && f.paths.isEmpty

variable (f : Filter) (m : CodeModel)

def acceptsPackage (p : Package) : Bool :=
  !f.packages.any fun pattern => matchesPackage pattern p.name

def acceptsFile (file : Nat) : Bool :=
  (m.file? file).all fun source => !f.paths.any (startsWith source.name.toList)

def acceptsPackageId (id : Nat) : Bool := (m.package? id).all f.acceptsPackage

def acceptsType (t : TypeDecl) : Bool := f.acceptsPackageId m t.package && f.acceptsFile m t.file

def packageOf (c : Callable) : Option Nat :=
  match c.kind with
  | .function package => some package
  | .method owner => (m.type? owner).map (·.package)

def acceptsCallable (c : Callable) : Bool :=
  (packageOf m c).all (f.acceptsPackageId m) && f.acceptsFile m c.file

def packagesOf : List Package := m.packages.toList.filter f.acceptsPackage

def typesOf (p : Package) : List TypeDecl := (m.typesOf p).filter (f.acceptsType m)

def functionsOf (p : Package) : List Callable := (m.functionsOf p).filter (f.acceptsCallable m)

end Filter

end PhpAnalyser
