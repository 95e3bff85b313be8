import PhpAnalyser.Syntax.Node
import PhpAnalyser.Text.Lowercase
import PhpAnalyser.Text.SortedMap
/-!
The methods that a type can be asked for, by their names in lowercase.
-/
namespace PhpAnalyser

inductive MethodSource where
  | declared
  | fromTrait (traitId : Nat)
  | renamed (traitId : Nat)
  deriving DecidableEq, Repr

structure MethodBinding where
  name : String
  method : Nat
  source : MethodSource
  visibility : Visibility
  deriving DecidableEq, Repr

abbrev MethodTable := SortedMap MethodBinding

namespace MethodTable

def get? (t : MethodTable) (name : String) : Option MethodBinding :=
  SortedMap.find? t (lowercase name)

def binds (t : MethodTable) (name : String) : Bool := (get? t name).isSome

/-- A name that is bound stays so. -/
def add (t : MethodTable) (binding : MethodBinding) : MethodTable :=
  if binds t binding.name then t else SortedMap.put t (lowercase binding.name) binding

/-- The visibility of a declared method stays. -/
def setVisibility (t : MethodTable) (name : String) (visibility : Visibility) : MethodTable :=
  match get? t name with
  | none => t
  | some binding =>
    if binding.source = .declared then t
    else SortedMap.put t (lowercase name) { binding with visibility }

def bindings (t : MethodTable) : List MethodBinding := t.map (·.2)

end MethodTable

inductive Composition where
  | pending
  | composed (table : MethodTable)
  | failed
  deriving DecidableEq, Repr

def Composition.table? : Composition → Option MethodTable
  | composed table => some table
  | _ => none

end PhpAnalyser
