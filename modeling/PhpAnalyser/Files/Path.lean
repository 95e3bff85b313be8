/-!
Paths as they are written, their components, and their order.
-/
namespace PhpAnalyser

namespace Path

def pieces : List Char → List (List Char)
  | [] => [[]]
  | c :: rest =>
    if c = '/' then [] :: pieces rest
    else
      match pieces rest with
      | piece :: more => (c :: piece) :: more
      | [] => [[c]]

def steps (path : String) : List String :=
  if path.isEmpty then [] else (pieces path.toList).map String.ofList

def isFromRoot (path : String) : Bool := path.toList.head? = some '/'

def text : List String → String
  | [""] => "/"
  | steps => "/".intercalate steps

def join (path name : String) : String :=
  if path.isEmpty then name
  else if path.toList.getLast? = some '/' then path ++ name
  else path ++ "/" ++ name

/-- Whether a piece, with those in front of it, stands for a step: empty pieces do not, and a dot
does only in front of all others. -/
def counts (piece : String) (before : List String) : Bool :=
  piece ≠ "" && (piece ≠ "." || before.isEmpty)

def trim : List String → List String
  | piece :: before :: rest =>
    if counts piece (before :: rest) then piece :: before :: rest else trim (before :: rest)
  | pieces => pieces

def aboveOf : List String → List (List String)
  | [] => []
  | piece :: before =>
    if counts piece before then (trim before).reverse :: aboveOf before else aboveOf before

def above (path : String) : List String := (aboveOf (steps path).reverse).map text

def parent? (path : String) : Option String := (above path).head?

inductive Component where
  | root
  | current
  | parent
  | name (text : String)
  deriving DecidableEq, Repr

def Component.ofStep : String → Component
  | "" => root
  | "." => current
  | ".." => parent
  | step => name step

/-- Only the first piece can be the root or the current directory. -/
def components (path : String) : List Component :=
  match steps path with
  | [] => []
  | first :: rest => .ofStep first :: (rest.filter fun s => s ≠ "" && s ≠ ".").map .ofStep

def fileName? (path : String) : Option String :=
  match (components path).getLast? with
  | some (.name text) => some text
  | _ => none

/-- The text behind the last dot of a file name, if there is any in front of the dot. -/
def suffix? (path : String) : Option String := do
  let reversed := (← fileName? path).toList.reverse
  let suffix := reversed.takeWhile (· ≠ '.')
  match reversed.dropWhile (· ≠ '.') with
  | '.' :: _ :: _ => return String.ofList suffix.reverse
  | _ => none

def Component.key : Component → List Nat
  | root => [0]
  | current => [1]
  | parent => [2]
  | name text => 3 :: text.toList.map Char.toNat

/-- Paths are in the order of their keys, and paths with one key are one path. -/
def key (path : String) : List (List Nat) := (components path).map Component.key

/-- The order of two paths is that of their first different components. -/
def isBefore (a b : String) : Bool := (key a).lex (key b) fun c d => c.lex d fun m n => m < n

end Path

end PhpAnalyser
