import PhpAnalyser.Report.Basic
import PhpAnalyser.Syntax.Interchange
import PhpAnalyser.Text.Character
/-!
The two written forms of reports.
-/
namespace PhpAnalyser

def TypeKind.word : TypeKind → String
  | class_ => "class"
  | interface_ => "interface"
  | trait_ => "trait"

def line (indent : Nat) (s : String) : String :=
  String.ofList (List.replicate indent ' ') ++ s ++ "\n"

def MetricMap.text (indent : Nat) (metrics : MetricMap) : String :=
  String.join (metrics.map fun (name, amount) =>
    line indent (padRight 14 name ++ " " ++ amount.text))

def MeasuredItem.text (indent : Nat) (word : String) (i : MeasuredItem) : String :=
  line indent (word ++ " " ++ i.name) ++ i.metrics.text (indent + 2)

def MeasuredType.text (t : MeasuredType) : String :=
  MeasuredItem.text 2 t.kind.word ⟨t.name, t.metrics⟩ ++
    String.join (t.methods.map (·.text 4 "method"))

def MeasuredFile.text (f : MeasuredFile) : String :=
  "\n" ++ line 0 (f.name ++ " (classes: " ++ toString f.classCount ++ ", functions: " ++
      toString f.functions.length ++ ")") ++
    String.join (f.types.map (·.text)) ++ String.join (f.functions.map (·.text 2 "function"))

def Report.text (r : Report) : String :=
  line 0 "Project" ++ r.project.text 2 ++ String.join (r.files.map (·.text))

open Json

/-- Amounts have one decimal place. -/
def MetricMap.toJson (metrics : MetricMap) : Json :=
  object (metrics.map fun (name, amount) => (name, number (amount.text ++ ".0")))

def MeasuredItem.toJson (i : MeasuredItem) : Json :=
  object [("name", string i.name), ("metrics", i.metrics.toJson)]

def MeasuredType.toJson (t : MeasuredType) : Json :=
  object [("name", string t.name), ("kind", string t.kind.word), ("metrics", t.metrics.toJson),
    ("methods", array (t.methods.map (·.toJson)))]

def MeasuredFile.toJson (f : MeasuredFile) : Json :=
  object [("name", string f.name), ("classes", nat f.classCount),
    ("functions", nat f.functions.length), ("types", array (f.types.map (·.toJson))),
    ("functionMetrics", array (f.functions.map (·.toJson)))]

def Report.toJson (r : Report) : Json :=
  object [("project", r.project.toJson), ("files", array (r.files.map (·.toJson)))]

end PhpAnalyser
