import PhpAnalyser.Measure.ClassLevel
import PhpAnalyser.Measure.Engine
import PhpAnalyser.Measure.Hierarchy
import PhpAnalyser.Measure.NodeCount
import PhpAnalyser.Text.Character
/-!
The analyzers that come with the program.
-/
namespace PhpAnalyser

namespace Registry

def builtin : List Analyzer :=
  [ClassLevel.analyzer, Complexity.analyzer, Hierarchy.analyzer, NodeCount.analyzer]

def ids : List String := builtin.map (·.id)

def find (id : String) : Except ConfigError Analyzer :=
  match builtin.find? (·.id = id) with
  | some a => .ok a
  | none => .error (.unknownAnalyzer id)

/-- Adds an analyzer behind those it depends on, unless it is there. A chain of dependencies is
at most as long as `fuel`. -/
def include_ : Nat → List Analyzer → String → Except ConfigError (List Analyzer)
  | 0, chosen, _ => .ok chosen
  | fuel + 1, chosen, id =>
    if chosen.any (·.id = id) then .ok chosen
    else do
      let a ← find id
      let chosen ← a.dependencies.foldlM (include_ fuel) chosen
      return chosen ++ [a]

def select (ids : List String) : Except ConfigError (List Analyzer) :=
  ids.foldlM (include_ (builtin.length + 1)) []

def line (a : Analyzer) : String :=
  let needs :=
    if a.dependencies.isEmpty then "" else " depends on " ++ ", ".intercalate a.dependencies
  padRight 24 a.id ++ " [" ++ a.capabilities.text ++ "]" ++ needs ++ "\n"

def listing : String := String.join (builtin.map line)

end Registry

end PhpAnalyser
