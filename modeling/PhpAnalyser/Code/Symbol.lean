import PhpAnalyser.Syntax.Node
import PhpAnalyser.Text.Lowercase
import PhpAnalyser.Text.Character
/-!
The declared names of a run, and references to types by name. Names are compared in lowercase and
without backslashes in front. A reference keeps the first answer that it gets.
-/
namespace PhpAnalyser

inductive TypeRef where
  | declared (id : Nat)
  | unknown (name : String)
  deriving DecidableEq, Repr

def TypeRef.id? : TypeRef → Option Nat
  | declared id => some id
  | unknown _ => none

def symbolKey (name : String) : String := lowercase (dropLeadingBackslashes name)

structure SymbolTable where
  types : List (String × Nat)
  functions : List (String × Nat)
  packages : List (String × Nat)
  deriving DecidableEq, Repr

namespace SymbolTable

def empty : SymbolTable := ⟨[], [], []⟩

def type? (s : SymbolTable) (name : String) : Option Nat := s.types.lookup (symbolKey name)

def function? (s : SymbolTable) (name : String) : Option Nat :=
  s.functions.lookup (symbolKey name)

def package? (s : SymbolTable) (name : String) : Option Nat := s.packages.lookup (symbolKey name)

/-- The first declaration of a name stays. -/
def addFirst (entries : List (String × Nat)) (name : String) (id : Nat) : List (String × Nat) :=
  if (entries.lookup (symbolKey name)).isSome then entries
  else entries ++ [(symbolKey name, id)]

def addType (s : SymbolTable) (name : String) (id : Nat) : SymbolTable :=
  { s with types := addFirst s.types name id }

def addFunction (s : SymbolTable) (name : String) (id : Nat) : SymbolTable :=
  { s with functions := addFirst s.functions name id }

def addPackage (s : SymbolTable) (name : String) (id : Nat) : SymbolTable :=
  { s with packages := addFirst s.packages name id }

/-- A name that is not declared is an answer too. -/
def lookupType (s : SymbolTable) (name : String) : TypeRef :=
  match s.type? name with
  | some id => .declared id
  | none => .unknown (dropLeadingBackslashes name)

def typeCount (s : SymbolTable) : Nat := s.types.length

end SymbolTable

structure TypeReference where
  name : String
  /-- The answer that the reference has got. -/
  known : Option TypeRef
  deriving DecidableEq, Repr

namespace TypeReference

def ofName (name : String) : TypeReference := ⟨name, none⟩

def resolve (r : TypeReference) (s : SymbolTable) : TypeRef :=
  r.known.getD (s.lookupType r.name)

def settle (r : TypeReference) (s : SymbolTable) : TypeReference :=
  { r with known := some (r.resolve s) }

def sameAs (r other : TypeReference) : Bool := r.name == other.name

end TypeReference

structure LateReference where
  reference : LateBound
  /-- The answer that the reference has got. -/
  known : Option TypeRef
  deriving DecidableEq, Repr

namespace LateReference

def ofReference (reference : LateBound) : LateReference := ⟨reference, none⟩

/-- Gives the reference its answer, unless it has one. -/
def prime (r : LateReference) (id : Nat) : LateReference :=
  { r with known := some (r.known.getD (.declared id)) }

def resolve (r : LateReference) (s : SymbolTable) : TypeRef :=
  r.known.getD
    (r.reference.target.elim (.unknown r.reference.keyword.word) s.lookupType)

def settle (r : LateReference) (s : SymbolTable) : LateReference :=
  { r with known := some (r.resolve s) }

def sameAs (r other : LateReference) : Bool := r.reference == other.reference

end LateReference

end PhpAnalyser
