import PhpAnalyser.Measure.Amount
import PhpAnalyser.Measure.Event
import PhpAnalyser.Measure.Filter
/-!
Analyzers measure a model once and keep what they find.
-/
namespace PhpAnalyser

structure Capabilities where
  perNode : Bool
  perProject : Bool
  filtered : Bool
  deriving DecidableEq, Repr

def Capabilities.text (c : Capabilities) : String :=
  ", ".intercalate ((if c.perNode then ["node"] else []) ++
    (if c.perProject then ["project"] else []) ++ (if c.filtered then ["filter"] else []))

/-- Metrics of entities; what was not measured has none. -/
abbrev NodeMetrics := List (EntityId × MetricMap)

def NodeMetrics.of (metrics : NodeMetrics) (e : EntityId) : MetricMap :=
  (List.lookup e metrics).getD []

structure Findings where
  events : List Event
  nodes : NodeMetrics
  project : MetricMap
  deriving DecidableEq, Repr

abbrev Results := List (String × NodeMetrics)

def Results.of (results : Results) (id : String) : NodeMetrics := (List.lookup id results).getD []

structure Analyzer where
  id : String
  capabilities : Capabilities
  dependencies : List String
  /-- The project metrics before the measurement. -/
  initial : MetricMap
  measure : CodeModel → Filter → Results → Findings

structure Instrument where
  analyzer : Analyzer
  filter : Filter
  findings : Option Findings

namespace Instrument

def ofAnalyzer (a : Analyzer) : Instrument := ⟨a, .all, none⟩

def id (i : Instrument) : String := i.analyzer.id

def nodes (i : Instrument) : NodeMetrics := i.findings.elim [] (·.nodes)

def project (i : Instrument) : MetricMap := i.findings.elim i.analyzer.initial (·.project)

def withFilter (i : Instrument) (filter : Filter) : Instrument :=
  if i.analyzer.capabilities.filtered then { i with filter } else i

def results (finished : List Instrument) : Results := finished.map fun i => (i.id, i.nodes)

/-- Measures a model, unless the instrument has done so, and tells what could be heard. -/
def analyze (i : Instrument) (m : CodeModel) (finished : List Instrument) :
    Instrument × List Event :=
  match i.findings with
  | some _ => (i, [])
  | none =>
    let findings := i.analyzer.measure m i.filter (results finished)
    ({ i with findings := some findings }, findings.events)

end Instrument

end PhpAnalyser
