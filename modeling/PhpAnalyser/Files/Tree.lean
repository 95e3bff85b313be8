import PhpAnalyser.Files.Path
/-!
Trees of files: directories, regular files and symbolic links, seen from a current directory.
-/
namespace PhpAnalyser

inductive Entry where
  | file (content : List UInt8)
  | link (target : String)
  | directory (entries : List (String × Entry))

namespace Entry

def entries : Entry → List (String × Entry)
  | directory entries => entries
  | _ => []

def isFile : Entry → Bool
  | file _ => true
  | _ => false

def at? : Entry → List String → Option Entry
  | e, [] => some e
  | e, name :: place => (e.entries.lookup name).bind (·.at? place)

def putEntry (name : String) (new : Entry) : List (String × Entry) → List (String × Entry)
  | [] => [(name, new)]
  | (other, e) :: rest =>
    if other = name then (name, new) :: rest else (other, e) :: putEntry name new rest

def put (new : Entry) : List String → Entry → Entry
  | [], _ => new
  | name :: place, e =>
    directory
      (putEntry name (put new place ((e.entries.lookup name).getD (directory []))) e.entries)

end Entry

structure FileTree where
  root : Entry
  /-- The names on the way from the root to the current directory. -/
  here : List String

namespace FileTree

def maxLinks : Nat := 40

/-- Where the steps lead from a place, which is given from the inside out. Only directories are
passed, and links are followed. -/
def walk (root : Entry) : Nat → List String → List String → Option (List String)
  | _, place, [] => some place
  | links, place, step :: steps =>
    match root.at? place.reverse with
    | some (.directory entries) =>
      if step = "" ∨ step = "." then walk root links place steps
      else if step = ".." then walk root links (place.drop 1) steps
      else
        match entries.lookup step with
        | none => none
        | some (.link target) =>
          match links with
          | 0 => none
          | links + 1 =>
            walk root links (if Path.isFromRoot target then [] else place)
              (Path.steps target ++ steps)
        | some _ => walk root links (step :: place) steps
    | _ => none
  termination_by links _ steps => (links, steps.length)

variable (t : FileTree)

def place? (path : String) : Option (List String) := do
  guard !path.isEmpty
  let start := if Path.isFromRoot path then [] else t.here.reverse
  return (← walk t.root maxLinks start (Path.steps path)).reverse

def find? (path : String) : Option Entry := (t.place? path).bind t.root.at?

def isFile (path : String) : Bool := (t.find? path).any Entry.isFile

def read? (path : String) : Option (List UInt8) :=
  match t.find? path with
  | some (.file content) => some content
  | _ => none

end FileTree

end PhpAnalyser
