import PhpAnalyser.Measure.Analyzer
/-!
The complexity of functions and methods: one path, and one more for each branch. The extended
measure counts the operators that may skip their right operand as well. Closures belong to the
callable around them, nested declarations do not.
-/
namespace PhpAnalyser

namespace NodeKind

def isBranch : NodeKind → Bool
  | if_ | elseIf | while_ | doWhile | for_ | foreach _ | switchLabel false | catch_ ..
  | conditional => true
  | _ => false

def isShortcut : NodeKind → Bool
  | booleanAnd | booleanOr | logicalAnd | logicalOr | logicalXor => true
  | _ => false

/-- What stands in a body without belonging to it. -/
def isNestedDeclaration : NodeKind → Bool
  | class_ .. | interface_ .. | trait_ .. | function_ .. => true
  | _ => false

end NodeKind

structure Complexity where
  ccn : Nat
  ccn2 : Nat
  deriving DecidableEq, Repr

namespace Complexity

def kindsOf (t : SyntaxTree) (body : Option Nat) : List NodeKind :=
  (body.elim [] (t.visit NodeKind.isNestedDeclaration)).map t.kind

def ofBody (t : SyntaxTree) (body : Option Nat) : Complexity :=
  let kinds := kindsOf t body
  let branches := kinds.countP NodeKind.isBranch
  ⟨branches + 1, branches + kinds.countP NodeKind.isShortcut + 1⟩

def metrics (c : Complexity) : MetricMap := .ofCounts [("ccn", c.ccn), ("ccn2", c.ccn2)]

def add (a b : Complexity) : Complexity := ⟨a.ccn + b.ccn, a.ccn2 + b.ccn2⟩

def total (measured : List (EntityId × Complexity)) : Complexity :=
  (measured.map (·.2)).foldl add ⟨0, 0⟩

variable (m : CodeModel) (f : Filter)

def callablesOf (p : Package) : List Callable :=
  (f.typesOf m p).flatMap m.methodsOf ++ f.functionsOf m p

def measured : List (EntityId × Complexity) :=
  ((f.packagesOf m).flatMap (callablesOf m f)).filterMap fun c =>
    (m.tree? c.file).map fun t => (c.entity, ofBody t c.body)

def events : List Event :=
  Event.analysis <| (f.packagesOf m).flatMap fun p =>
    Event.package p <|
      ((f.typesOf m p).flatMap fun t => Event.type t ((m.methodsOf t).flatMap Event.method)) ++
        (f.functionsOf m p).flatMap Event.function

def analyzer : Analyzer where
  id := "cyclomatic-complexity"
  capabilities := ⟨true, true, true⟩
  dependencies := []
  initial := metrics ⟨0, 0⟩
  measure m f _ :=
    let measured := measured m f
    ⟨events m f, measured.map fun entry => (entry.1, entry.2.metrics), (total measured).metrics⟩

end Complexity

end PhpAnalyser
