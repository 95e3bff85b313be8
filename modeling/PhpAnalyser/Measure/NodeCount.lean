import PhpAnalyser.Measure.Analyzer
/-!
Counts of packages, classes, interfaces, methods and functions.
-/
namespace PhpAnalyser

structure NodeCount where
  classes : Nat
  interfaces : Nat
  methods : Nat
  functions : Nat
  deriving DecidableEq, Repr

namespace NodeCount

def metrics (c : NodeCount) : MetricMap :=
  .ofCounts
    [("noc", c.classes), ("noi", c.interfaces), ("nom", c.methods), ("nof", c.functions)]

def add (a b : NodeCount) : NodeCount :=
  ⟨a.classes + b.classes, a.interfaces + b.interfaces, a.methods + b.methods,
    a.functions + b.functions⟩

variable (m : CodeModel) (f : Filter)

def ofPackage (p : Package) : NodeCount :=
  let types := f.typesOf m p
  ⟨types.countP (·.kind = .class_), types.countP (·.kind = .interface_),
    (types.flatMap (·.methods)).length, (f.functionsOf m p).length⟩

def packageMetrics : NodeMetrics :=
  (f.packagesOf m).map fun p => (.package p.id, (ofPackage m f p).metrics)

def typeMetrics : NodeMetrics :=
  ((f.packagesOf m).flatMap (f.typesOf m)).map fun t =>
    (t.entity, .ofCounts [("nom", t.methods.length)])

def projectMetrics : MetricMap :=
  let packages := f.packagesOf m
  let total := (packages.map (ofPackage m f)).foldl add ⟨0, 0, 0, 0⟩
  total.metrics.put "nop" (.whole packages.length)

def events : List Event :=
  Event.analysis <| (f.packagesOf m).flatMap fun p =>
    Event.package p <|
      ((f.typesOf m p).flatMap fun t => Event.type t ((m.methodsOf t).flatMap Event.method)) ++
        (f.functionsOf m p).flatMap Event.function

def analyzer : Analyzer where
  id := "node-count"
  capabilities := ⟨true, true, true⟩
  dependencies := []
  initial := []
  measure m f _ := ⟨events m f, packageMetrics m f ++ typeMetrics m f, projectMetrics m f⟩

end NodeCount

end PhpAnalyser
