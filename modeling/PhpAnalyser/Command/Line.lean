import PhpAnalyser.Command.Analysis
/-!
Command lines, and what the program answers to them.
-/
namespace PhpAnalyser

inductive Command where
  | version
  | analyzers
  | analyze (options : AnalysisOptions)
  deriving DecidableEq, Repr

namespace Command

def isVerbose (word : String) : Bool :=
  word = "--verbose" ||
    match word.toList with
    | '-' :: letter :: more => (letter :: more).all (· = 'v')
    | _ => false

/-- The request for the version may stand behind letters that raise the detail. -/
def asksVersion (word : String) : Bool :=
  word = "--version" ||
    match word.toList with
    | '-' :: letters => (letters.dropWhile (· = 'v')).head? = some 'V'
    | _ => false

/-- A lone dash is no option. -/
def isOption (word : String) : Bool :=
  match word.toList with
  | '-' :: _ :: _ => true
  | _ => false

inductive Valued where
  | config
  | format
  | excludePackage
  deriving DecidableEq, Repr

def Valued.names : List (String × Valued) :=
  [("--config", config), ("--format", format), ("--exclude-package", excludePackage)]

/-- An option with a value in the same word. -/
def valueInside? (word : String) : Option (Valued × String) :=
  match word.toList.dropWhile (· ≠ '=') with
  | _ :: value =>
    (Valued.names.lookup (String.ofList (word.toList.takeWhile (· ≠ '=')))).map
      (·, String.ofList value)
  | [] => none

/-- Sets an option. Only packages to leave out may be named again. -/
def set (o : AnalysisOptions) (option : Valued) (value : String) : Option AnalysisOptions :=
  match option with
  | .config => if o.settings.isNone then some { o with settings := some value } else none
  | .format =>
    if o.format.isNone then
      (ReportFormat.names.lookup value).map fun format => { o with format := some format }
    else none
  | .excludePackage => some { o with excludedPackages := o.excludedPackages ++ [value] }

/-- The options of an analysis. Behind two dashes all words are paths. -/
def analysis (o : AnalysisOptions) : List String → Option AnalysisOptions
  | [] => some o
  | "--" :: paths => some { o with paths := o.paths ++ paths }
  | word :: rest =>
    if !isOption word then analysis { o with paths := o.paths ++ [word] } rest
    else if isVerbose word then analysis o rest
    else
      match valueInside? word with
      | some (option, value) => do analysis (← set o option value) rest
      | none =>
        match Valued.names.lookup word, rest with
        | some option, value :: rest =>
          if isOption value then none else do analysis (← set o option value) rest
        | _, _ => none

def onlyVerbose : List String → Bool
  | [] => true
  | word :: rest => if word = "--" then rest.isEmpty else isVerbose word && onlyVerbose rest

def parse : List String → Option Command
  | [] => none
  | "analyze" :: rest => do
    let o ← analysis ⟨[], none, none, []⟩ rest
    guard !o.paths.isEmpty
    return analyze o
  | "analyzers" :: rest => do
    guard (onlyVerbose rest)
    return analyzers
  | word :: rest =>
    if isVerbose word then parse rest
    else if asksVersion word then some version
    else none

/-- The paths that the answer to a command line hangs on, the shortest first. -/
def places (line : List String) : List String :=
  match parse line with
  | some (analyze o) =>
    let settings := o.paths.head?.toList.flatMap fun start =>
      Settings.candidates true start ++ Settings.candidates false start
    (o.paths ++ o.settings.toList ++ settings).mergeSort (·.length ≤ ·.length)
  | _ => []

def suffixes (t : FileTree) (line : List String) : List String :=
  match parse line with
  | some (analyze o) =>
    o.paths.head?.toList.flatMap fun start =>
      (Settings.load t o.settings start).toOption.elim [] (·.suffixes)
  | _ => []

structure Answer where
  status : Nat
  output : String
  complaint : Option String
  deriving DecidableEq, Repr

def Answer.success (output : String) : Answer := ⟨0, output, none⟩

def versionText : String := "strata 0.1.0\n"

def answerAnalysis : Except AnalysisFault AnalysisResult → Answer
  | .error fault => ⟨1, "", some fault.message⟩
  | .ok r =>
    if r.errors = 0 then .success (r.written ++ "\n")
    else
      let noun := if r.errors = 1 then " error" else " errors"
      ⟨1, r.written ++ "\n",
        some (toString r.errors ++ noun ++ " found in " ++ toString r.files ++ " file(s)")⟩

def answer (t : FileTree) (line : List String) : Answer :=
  match parse line with
  | none => ⟨2, "", some "bad command line"⟩
  | some version => .success versionText
  | some analyzers => .success Registry.listing
  | some (analyze o) => answerAnalysis (Analysis.run t o)

end Command

end PhpAnalyser
