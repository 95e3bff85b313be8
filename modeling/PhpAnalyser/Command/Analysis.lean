import PhpAnalyser.Code.Assembly
import PhpAnalyser.Files.Discovery
import PhpAnalyser.Measure.Registry
import PhpAnalyser.Report.Written
import PhpAnalyser.Settings.Written
/-!
An analysis from the paths on the command line to the written report.
-/
namespace PhpAnalyser

structure AnalysisOptions where
  paths : List String
  settings : Option String
  format : Option ReportFormat
  excludedPackages : List String
  deriving DecidableEq, Repr

inductive AnalysisFault where
  | noPaths
  | settings (fault : Settings.Fault)
  | analyzers (fault : ConfigError)
  | missingPath (path : String)
  | noFiles
  | unreadableFile (path : String)
  deriving DecidableEq, Repr

def Settings.Fault.message : Settings.Fault → String
  | unreadable path => "Failed to read config '" ++ path ++ "'"
  | invalid path => "Failed to parse config '" ++ path ++ "'"

def AnalysisFault.message : AnalysisFault → String
  | noPaths => "No input paths given"
  | settings fault => fault.message
  | analyzers fault => fault.message
  | missingPath path => "Path '" ++ path ++ "' does not exist"
  | noFiles => "No source files found"
  | unreadableFile path => "Failed to read '" ++ path ++ "'"

structure AnalysisResult where
  written : String
  errors : Nat
  files : Nat
  deriving DecidableEq, Repr

def Report.written (r : Report) : ReportFormat → String
  | .text => r.text
  | .json => r.toJson.pretty 0

namespace Analysis

def select (s : Settings) : Except ConfigError (List Analyzer) :=
  s.analyzers.elim (.ok Registry.builtin) Registry.select

def engine (analyzers : List Analyzer) (filter : Filter) : Except ConfigError Engine :=
  analyzers.foldlM Engine.register { Engine.empty with filter }

def read (t : FileTree) (path : String) : Except AnalysisFault (String × List UInt8) :=
  (t.read? path).elim (.error (.unreadableFile path)) fun content => .ok (path, content)

def assemble (files : List (String × List UInt8)) : Assembly :=
  (files.foldl (fun a file => (Assembly.addBytes a file.1 file.2).1) Assembly.empty).finish

def report (s : Settings) (filter : Filter) (analyzers : List Analyzer) (m : CodeModel) :
    Except ConfigError Report := do
  let r ← ((← engine analyzers filter).run m).2
  return .build m r s.table filter

/-- The first fault that is met ends the analysis; analyzers are looked up before any file is. -/
def run (t : FileTree) (o : AnalysisOptions) : Except AnalysisFault AnalysisResult := do
  let some start := o.paths.head? | throw .noPaths
  let s ← (Settings.load t o.settings start).mapError .settings
  let analyzers ← (select s).mapError .analyzers
  let paths ← (Discovery.discover t s.suffixes o.paths).mapError .missingPath
  if paths.isEmpty then throw .noFiles
  let a := assemble (← paths.mapM (read t))
  let r ← (report s (s.filter o.excludedPackages) analyzers a.model).mapError .analyzers
  return ⟨r.written (o.format.getD s.format), a.diagnostics.countP (·.isError), paths.length⟩

end Analysis

end PhpAnalyser
