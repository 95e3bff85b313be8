import PhpAnalyser.Command.Line
/-!
The program: it takes a picture of the files that its command line names, and prints the answer.
-/
namespace PhpAnalyser

namespace Picture

/-- A regular file; only the content that is wanted is in the picture. -/
def file (wanted : String → Bool) (path : String) : IO Entry := do
  if wanted path then return .file (← IO.FS.readBinFile path).toList
  return .file []

/-- All that is below a directory. Links stand for the places where they end. -/
partial def below (wanted : String → Bool) (path : String) : IO (List (String × Entry)) := do
  let mut entries := []
  for found in ← (← IO.FS.realPath path).readDir do
    let inner := found.path.toString
    match (← found.path.symlinkMetadata).type with
    | .dir => entries := (found.fileName, .directory (← below wanted inner)) :: entries
    | .file => entries := (found.fileName, ← file wanted inner) :: entries
    | .symlink =>
      try
        entries := (found.fileName, .link (← IO.FS.realPath inner).toString) :: entries
      catch _ => continue
    | .other => continue
  return entries

def names (path : String) : List String :=
  (Path.components path).filterMap fun
    | .name text => some text
    | _ => none

/-- Adds the last step of a path as a link to what it leads to, unless the path leads there. -/
def addStep (t : FileTree) (path : String) : IO FileTree := do
  if path.isEmpty then return t
  let real := (← IO.FS.realPath path).toString
  if t.place? path = some (names real) then return t
  let parent := ((Path.parent? path).bind t.place?).getD t.here
  let place := parent ++ (Path.fileName? path).toList
  let e : Entry := if place = names real then .directory [] else .link real
  return { t with root := (t.root.at? place).elim (e.put place t.root) fun _ => t.root }

def add (wanted : String → Bool) (t : FileTree) (path : String) : IO FileTree := do
  try
    let t ← (path :: Path.above path).reverse.foldlM addStep t
    let real ← IO.FS.realPath path
    let e ← if ← real.isDir then .directory <$> below wanted real.toString
      else file wanted real.toString
    return { t with root := e.put (names real.toString) t.root }
  catch _ => return t

def take (wanted : String → Bool) (paths : List String) : IO FileTree := do
  let here := names (← IO.FS.realPath ".").toString
  paths.foldlM (add wanted) ⟨(Entry.directory []).put here (.directory []), here⟩

def ofLine (line : List String) : IO FileTree := do
  let places := Command.places line
  let isNamed (path : String) : Bool :=
    places.any fun place => Path.fileName? place = Path.fileName? path
  let suffixes := Command.suffixes (← take isNamed places) line
  take (fun path => isNamed path || Discovery.hasSuffix suffixes path) places

end Picture

end PhpAnalyser

open PhpAnalyser in
def main (line : List String) : IO UInt32 := do
  let answer := Command.answer (← Picture.ofLine line) line
  IO.print answer.output
  for complaint in answer.complaint do
    IO.eprintln ("strata: " ++ complaint)
  return UInt32.ofNat answer.status
