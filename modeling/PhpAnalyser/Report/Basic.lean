import PhpAnalyser.Measure.Engine
/-!
Reports: the metrics of a project, and of the types and functions in each of its files. Files with
one name are one file, and files without a type or function are left out.
-/
namespace PhpAnalyser

structure MeasuredItem where
  name : String
  metrics : MetricMap
  deriving DecidableEq, Repr

structure MeasuredType where
  kind : TypeKind
  name : String
  metrics : MetricMap
  methods : List MeasuredItem
  deriving DecidableEq, Repr

structure MeasuredFile where
  name : String
  types : List MeasuredType
  functions : List MeasuredItem
  deriving DecidableEq, Repr

/-- Classes and interfaces; traits do not count. -/
def MeasuredFile.classCount (f : MeasuredFile) : Nat := f.types.countP (·.kind ≠ .trait_)

structure Report where
  project : MetricMap
  files : List MeasuredFile
  deriving DecidableEq, Repr

namespace Report

def inFile (name : String) (items : List (String × α)) : List α :=
  (items.filter (·.1 = name)).map (·.2)

def fileNames (types : List (String × MeasuredType)) (functions : List (String × MeasuredItem)) :
    List String :=
  (SortedMap.ofList ((types.map (·.1) ++ functions.map (·.1)).map (·, ()))).map (·.1)

def byFile (types : List (String × MeasuredType)) (functions : List (String × MeasuredItem)) :
    List MeasuredFile :=
  (fileNames types functions).map fun name => ⟨name, inFile name types, inFile name functions⟩

variable (m : CodeModel) (r : Engine.Run) (t : Renaming)

def item (c : Callable) : MeasuredItem := ⟨c.qualifiedName, t.apply (r.nodes c.entity)⟩

def typeItem (d : TypeDecl) : MeasuredType :=
  ⟨d.kind, d.qualifiedName, t.apply (r.nodes d.entity), (m.methodsOf d).map (item r t)⟩

def fileName (file : Nat) : String := (m.file? file).elim "" (·.name)

def types (f : Filter) : List (String × MeasuredType) :=
  (m.types.toList.filter (f.acceptsType m)).map fun d => (fileName m d.file, typeItem m r t d)

def functions (f : Filter) : List (String × MeasuredItem) :=
  (m.callables.toList.filter fun c => !c.isMethod && f.acceptsCallable m c).map fun c =>
    (fileName m c.file, item r t c)

/-- The number of files is a metric of the project that no table renames. -/
def build (f : Filter) : Report :=
  let files := byFile (types m r t f) (functions m r t f)
  ⟨(r.mergedProject t).put "files" (.whole files.length), files⟩

end Report

end PhpAnalyser
