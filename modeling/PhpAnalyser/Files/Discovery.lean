import PhpAnalyser.Files.Tree
/-!
The source files that a list of paths stands for. A directory stands for the files below it that
have one of the suffixes; links below it are passed over.
-/
namespace PhpAnalyser

mutual

def Entry.files (path : String) : Entry → List String
  | .file _ => [path]
  | .link _ => []
  | .directory entries => Entry.filesBelow path entries

def Entry.filesBelow (path : String) : List (String × Entry) → List String
  | [] => []
  | (name, e) :: rest => e.files (Path.join path name) ++ Entry.filesBelow path rest

end

namespace Discovery

def hasSuffix (suffixes : List String) (path : String) : Bool :=
  (Path.suffix? path).any suffixes.contains

def precedes (a b : String) : Bool := !Path.isBefore b a

/-- Of neighbours that are the same path, the first. -/
def dropRepeats : List String → List String
  | [] => []
  | path :: rest =>
    match dropRepeats rest with
    | next :: more =>
      if Path.key path = Path.key next then path :: more else path :: next :: more
    | [] => [path]

def arrange (paths : List String) : List String := dropRepeats (paths.mergeSort precedes)

def filesOf? (t : FileTree) (suffixes : List String) (path : String) : Option (List String) :=
  (t.find? path).map fun e => (e.files path).filter (hasSuffix suffixes)

/-- All source files in the order of their paths, or the first path with nothing there. -/
def discover (t : FileTree) (suffixes paths : List String) : Except String (List String) := do
  let found ← paths.mapM fun path =>
    match filesOf? t suffixes path with
    | some files => .ok files
    | none => .error path
  return arrange found.flatten

end Discovery

end PhpAnalyser
