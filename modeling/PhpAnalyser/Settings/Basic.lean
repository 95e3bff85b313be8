import PhpAnalyser.Measure.Filter
import PhpAnalyser.Measure.Renaming
/-!
The settings of an analysis.
-/
namespace PhpAnalyser

inductive ReportFormat where
  | text
  | json
  deriving DecidableEq, Repr

inductive BaseNames where
  | phpunit
  | unchanged
  deriving DecidableEq, Repr

structure Settings where
  /-- All analyzers run if none are named. -/
  analyzers : Option (List String)
  suffixes : List String
  excludedPackages : List String
  excludedPaths : List String
  format : ReportFormat
  baseNames : BaseNames
  rename : SortedMap String
  deriving DecidableEq, Repr

def ReportFormat.names : List (String × ReportFormat) := [("text", text), ("json", json)]

def BaseNames.names : List (String × BaseNames) := [("phpunit", phpunit), ("none", unchanged)]

def BaseNames.table : BaseNames → Renaming
  | phpunit => .phpunit
  | unchanged => []

namespace Settings

def default : Settings := ⟨none, ["php"], [], [], .text, .phpunit, []⟩

def filter (s : Settings) (packages : List String) : Filter :=
  ⟨s.excludedPackages ++ packages, s.excludedPaths⟩

/-- New names are given in the order of the old ones. -/
def table (s : Settings) : Renaming := s.baseNames.table ++ s.rename

end Settings

end PhpAnalyser
