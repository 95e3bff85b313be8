/-!
Maps from names to values, as lists in the order of their names.
-/
namespace PhpAnalyser

abbrev SortedMap (α : Type) := List (String × α)

namespace SortedMap

def find? (m : SortedMap α) (key : String) : Option α := List.lookup key m

def contains (m : SortedMap α) (key : String) : Bool := (m.find? key).isSome

def put (m : SortedMap α) (key : String) (value : α) : SortedMap α :=
  match m with
  | [] => [(key, value)]
  | entry :: rest =>
    if key = entry.1 then (key, value) :: rest
    else if key < entry.1 then (key, value) :: entry :: rest
    else entry :: put rest key value

def erase (m : SortedMap α) (key : String) : SortedMap α := m.filter (·.1 ≠ key)

/-- The values of both maps; where both have one, the second map's. -/
def union (m other : SortedMap α) : SortedMap α :=
  other.foldl (fun m entry => m.put entry.1 entry.2) m

def ofList (entries : List (String × α)) : SortedMap α := union [] entries

end SortedMap

end PhpAnalyser
