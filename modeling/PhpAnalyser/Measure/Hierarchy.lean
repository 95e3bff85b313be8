import PhpAnalyser.Measure.Analyzer
/-!
Abstract and concrete classes, roots and leaves. A root is the parent of a counted class and has
no parent of its own; as many leaves are counted as there are more classes than parents.
-/
namespace PhpAnalyser

namespace Hierarchy

variable (m : CodeModel) (f : Filter)

def classes : List TypeDecl :=
  (f.packagesOf m).flatMap fun p => (f.typesOf m p).filter (·.kind = .class_)

def parents : List TypeDecl :=
  ((classes m f).filterMap m.parentOf).foldl
    (fun known p => if known.any (·.entity = p.entity) then known else known ++ [p]) []

def metrics : MetricMap :=
  let counted := classes m f
  let abstract_ := counted.countP (·.isAbstract)
  .ofCounts
    [("clsa", abstract_), ("clsc", counted.length - abstract_),
      ("roots", (parents m f).countP (·.parent.isNone)),
      ("leafs", counted.length - (parents m f).length)]

def memberEvents : Entity → List Event
  | .callable c => Event.method c
  | .property p => Event.property p
  | _ => []

/-- Traits take no part in the hierarchy. -/
def typeEvents (t : TypeDecl) : List Event :=
  match t.kind with
  | .class_ => Event.type t ((m.membersOf t).flatMap memberEvents)
  | .interface_ => Event.type t ((m.methodsOf t).flatMap Event.method)
  | .trait_ => []

def events : List Event :=
  Event.analysis <| (f.packagesOf m).flatMap fun p =>
    Event.package p <|
      (f.typesOf m p).flatMap (typeEvents m) ++ (f.functionsOf m p).flatMap Event.function

def analyzer : Analyzer where
  id := "hierarchy"
  capabilities := ⟨true, true, true⟩
  dependencies := []
  initial := .ofCounts [("clsa", 0), ("clsc", 0), ("roots", 0), ("leafs", 0)]
  measure m f _ := ⟨events m f, [], metrics m f⟩

end Hierarchy

end PhpAnalyser
