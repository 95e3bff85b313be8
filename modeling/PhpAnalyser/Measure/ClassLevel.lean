import PhpAnalyser.Measure.Complexity
/-!
The size of classes, their place in the inheritance, with what they have from the types above them,
and the complexity of their methods.
-/
namespace PhpAnalyser

namespace CodeModel

variable (m : CodeModel)

/-- The parents above a type, the nearest first, up to one that was `seen`. -/
def parentsWithin : Nat → List Nat → TypeDecl → List TypeDecl
  | 0, _, _ => []
  | fuel + 1, seen, t =>
    match m.parentOf t with
    | none => []
    | some p => if seen.contains p.id then [] else p :: parentsWithin fuel (p.id :: seen) p

/-- The types above a type, each once, also when they form a cycle. -/
def ancestors (t : TypeDecl) : List TypeDecl := m.parentsWithin m.types.size [t.id] t

/-- A parent that is not declared counts once. -/
def inheritanceDepth (t : TypeDecl) : Nat :=
  let above := m.ancestors t
  let top := above.getLast?.getD t
  above.length + if top.parent.isSome && (m.parentOf top).isNone then 1 else 0

def propertiesOf (t : TypeDecl) : List Property := t.properties.filterMap m.property?

/-- The names of the properties of a type and of the visible ones above it. -/
def propertyNames (t : TypeDecl) : List String :=
  let inherited := ((m.ancestors t).flatMap m.propertiesOf).filter (·.visibility ≠ .private_)
  ((m.propertiesOf t ++ inherited).map (·.name)).eraseDups

end CodeModel

namespace ClassLevel

variable (m : CodeModel) (f : Filter)

def classesOf (p : Package) : List TypeDecl := (f.typesOf m p).filter (·.kind = .class_)

def weightedMethods (complexity : NodeMetrics) (t : TypeDecl) : Amount :=
  .sum ((m.methodsOf t).filterMap fun c => (complexity.of c.entity).find? "ccn")

def metrics (complexity : NodeMetrics) (t : TypeDecl) : MetricMap :=
  let methods := m.methodsOf t
  let properties := m.propertiesOf t
  let visible := (methods.filter (·.visibility = .public_)).length +
    (properties.filter (·.visibility = .public_)).length
  (MetricMap.ofCounts
    [("impl", t.interfaces.length), ("dit", m.inheritanceDepth t), ("vars", t.properties.length),
      ("varsi", (m.propertyNames t).length), ("cis", visible),
      ("csz", t.methods.length + t.properties.length)]).put "wmc" (weightedMethods m complexity t)

def events : List Event :=
  Event.analysis <| (f.packagesOf m).flatMap fun p =>
    Event.package p ((classesOf m f p).flatMap fun t => Event.type t [])

def analyzer : Analyzer where
  id := "class-level"
  capabilities := ⟨true, false, true⟩
  dependencies := [Complexity.analyzer.id]
  initial := []
  measure m f results :=
    let complexity := results.of Complexity.analyzer.id
    let classes := (f.packagesOf m).flatMap (classesOf m f)
    ⟨events m f, classes.map fun t => (t.entity, metrics m complexity t), []⟩

end ClassLevel

end PhpAnalyser
