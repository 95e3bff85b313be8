import PhpAnalyser.Code.Composition
import PhpAnalyser.Code.Registration
import PhpAnalyser.Grammar.Unit
/-!
From files to the finished model. Files are added one by one; traits are composed once all files
are known.
-/
namespace PhpAnalyser

structure Assembly where
  model : CodeModel
  diagnostics : List Diagnostic
  fileNames : List String

namespace Assembly

def empty : Assembly := ⟨.empty, [], []⟩

/-- A file that cannot be read takes a number too. -/
def reject (a : Assembly) (name : String) (found : List Diagnostic) : Assembly :=
  ⟨a.model, a.diagnostics ++ found, a.fileNames ++ [name]⟩

def addSource (a : Assembly) (name source : String) : Assembly × Bool :=
  let file := a.fileNames.length
  match parse source file with
  | .ok tree =>
    let (model, found) := a.model.register name tree
    (⟨model, a.diagnostics ++ found, a.fileNames ++ [name]⟩, true)
  | .error errors => (a.reject name (errors.map (.ofParseError file)), false)

def addBytes (a : Assembly) (name : String) (bytes : List UInt8) : Assembly × Bool :=
  match decodeSource bytes with
  | .ok source => a.addSource name source
  | .error e => (a.reject name [.ofParseError a.fileNames.length e.toParseError], false)

def finish (a : Assembly) : Assembly :=
  let (model, found) := a.model.composeAll
  { a with model, diagnostics := a.diagnostics ++ found }

/-- Warnings do not count. -/
def isSuccess (a : Assembly) : Bool := !a.diagnostics.any (·.isError)

def fileName? (a : Assembly) (file : Nat) : Option String := a.fileNames[file]?

end Assembly

end PhpAnalyser
