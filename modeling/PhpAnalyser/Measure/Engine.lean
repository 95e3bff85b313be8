import PhpAnalyser.Measure.Analyzer
import PhpAnalyser.Measure.Renaming
/-!
Engines run analyzers over a model, each behind those it depends on.
-/
namespace PhpAnalyser

inductive ConfigError where
  | duplicateAnalyzer (id : String)
  | noResultShape (id : String)
  | missingDependency (analyzer dependency : String)
  | dependencyCycle (ids : List String)
  | unknownAnalyzer (id : String)
  deriving DecidableEq, Repr

def ConfigError.message : ConfigError → String
  | duplicateAnalyzer id => "analyzer '" ++ id ++ "' is registered twice"
  | noResultShape id => "analyzer '" ++ id ++ "' produces neither node nor project metrics"
  | missingDependency analyzer dependency =>
    "analyzer '" ++ analyzer ++ "' depends on '" ++ dependency ++ "', which is not registered"
  | dependencyCycle ids => "analyzer dependencies form a cycle between " ++ ", ".intercalate ids
  | unknownAnalyzer id => "unknown analyzer '" ++ id ++ "'"

/-- The instruments in the order of their registration, and in the order of a run once there was
one. -/
structure Engine where
  instruments : List Instrument
  filter : Filter
  ordered : Bool

/-- What was measured in a run: an analyzer with the finished ones it was given, and what could
be heard of it. -/
structure Measurement where
  analyzer : String
  given : List String
  events : List Event
  deriving DecidableEq, Repr

namespace Engine

def empty : Engine := ⟨[], .all, false⟩

def ids (e : Engine) : List String := e.instruments.map (·.id)

def register (e : Engine) (a : Analyzer) : Except ConfigError Engine :=
  if e.ids.contains a.id then .error (.duplicateAnalyzer a.id)
  else if !a.capabilities.perNode && !a.capabilities.perProject then .error (.noResultShape a.id)
  else .ok { e with instruments := e.instruments ++ [.ofAnalyzer a], ordered := false }

def missing? (instruments : List Instrument) : Option ConfigError :=
  (instruments.flatMap fun i => i.analyzer.dependencies.map (i.id, ·)).findSome?
    fun (id, dependency) =>
      if instruments.any (·.id = dependency) then none
      else some (.missingDependency id dependency)

def isReady (placed : List Instrument) (i : Instrument) : Bool :=
  i.analyzer.dependencies.all fun dependency => placed.any (·.id = dependency)

/-- Places the first instrument that is ready, again and again, and returns those that never
are. Each round places one of at most `fuel` instruments. -/
def place : Nat → List Instrument → List Instrument → List Instrument × List Instrument
  | 0, placed, pending => (placed, pending)
  | fuel + 1, placed, pending =>
    match pending.findIdx? (isReady placed) with
    | none => (placed, pending)
    | some i => place fuel (placed ++ (pending[i]?).toList) (pending.eraseIdx i)

/-- Orders the instruments; on failure they stay the same set. -/
def order (e : Engine) : Engine × Option ConfigError :=
  if e.ordered then (e, none)
  else
    match missing? e.instruments with
    | some fault => (e, some fault)
    | none =>
      match place e.instruments.length [] e.instruments with
      | (placed, []) => ({ e with instruments := placed, ordered := true }, none)
      | (placed, pending) =>
        ({ e with instruments := placed ++ pending },
          some (.dependencyCycle (pending.map (·.id))))

def step (m : CodeModel) (filter : Filter) (state : List Instrument × List Measurement)
    (i : Instrument) : List Instrument × List Measurement :=
  let (finished, measured) := state
  let given := finished.filter fun other => i.analyzer.dependencies.contains other.id
  let (i', events) := (i.withFilter filter).analyze m given
  let new := if i.findings.isNone then [⟨i.id, given.map (·.id), events⟩] else []
  (finished ++ [i'], measured ++ new)

structure Run where
  instruments : List Instrument
  measured : List Measurement

def run (e : Engine) (m : CodeModel) : Engine × Except ConfigError Run :=
  match e.order with
  | (e, some fault) => (e, .error fault)
  | (e, none) =>
    let (instruments, measured) := e.instruments.foldl (step m e.filter) ([], [])
    ({ e with instruments }, .ok ⟨instruments, measured⟩)

namespace Run

variable (r : Run)

def project : List (String × MetricMap) :=
  (r.instruments.filter (·.analyzer.capabilities.perProject)).map fun i => (i.id, i.project)

def projectOf? (id : String) : Option MetricMap := r.project.lookup id

/-- The project metrics of all analyzers, where later ones count, under their new names. -/
def mergedProject (t : Renaming) : MetricMap :=
  t.apply (r.project.foldl (fun merged entry => SortedMap.union merged entry.2) [])

def perNode : List Instrument := r.instruments.filter (·.analyzer.capabilities.perNode)

def nodesOf (id : String) (e : EntityId) : MetricMap :=
  (r.perNode.find? (·.id = id)).elim [] fun i => i.nodes.of e

def nodes (e : EntityId) : MetricMap :=
  r.perNode.foldl (fun merged i => SortedMap.union merged (i.nodes.of e)) []

end Run

end Engine

end PhpAnalyser
