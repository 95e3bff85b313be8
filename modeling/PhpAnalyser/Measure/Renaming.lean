import PhpAnalyser.Text.SortedMap
/-!
Tables that give metrics other names.
-/
namespace PhpAnalyser

/-- Old names with their new names, to be applied in order. -/
abbrev Renaming := List (String × String)

namespace Renaming

def phpunit : Renaming :=
  [("ccn2", "ccn"), ("noc", "classes"), ("noi", "interfs"), ("nof", "functions"),
    ("eloc", "locExecutable"), ("maxDIT", "maxdit")]

/-- A value that is there moves to the new name, whatever was there before. -/
def rename (m : SortedMap α) (entry : String × String) : SortedMap α :=
  match m.find? entry.1 with
  | some value => (m.erase entry.1).put entry.2 value
  | none => m

def apply (t : Renaming) (m : SortedMap α) : SortedMap α := t.foldl rename m

end Renaming

end PhpAnalyser
