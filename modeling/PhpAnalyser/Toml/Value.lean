import PhpAnalyser.Text.SortedMap
import PhpAnalyser.Toml.Moment
/-!
TOML values, and the rules on which tables a header or a dotted key may still add to.
-/
namespace PhpAnalyser

namespace Toml

/-- How a table came about: by its own header, as a part of a longer header, as a part of a dotted
key, or in braces. -/
inductive Origin where
  | header
  | implied
  | dotted
  | inline_
  deriving DecidableEq, Repr

/-- Numbers and truth values are told from all else, but not from one another. -/
inductive Value where
  | string (text : String)
  | scalar
  | moment (m : Moment)
  | array (items : List Value)
  | table (origin : Origin) (entries : List (String × Value))
  /-- The tables under one doubled header. Headers and keys go on in the last of them. -/
  | tables (earlier : List (List (String × Value))) (last : List (String × Value))

abbrev Entries := SortedMap Value

inductive Way where
  | header
  | key
  deriving DecidableEq, Repr

namespace Way

def origin : Way → Origin
  | header => .implied
  | key => .dotted

/-- A table in braces is complete; a dotted key passes no table with a header of its own. -/
def mayEnter : Way → Origin → Bool
  | header, origin => origin ≠ .inline_
  | key, origin => origin = .implied || origin = .dotted

end Way

def update (way : Way) (change : Origin → Entries → Option Entries) :
    List String → Origin → Entries → Option Entries
  | [], origin, entries => change origin entries
  | key :: place, _, entries =>
    match entries.find? key with
    | none => do
      return entries.put key (.table way.origin (← update way change place way.origin []))
    | some (.table origin inner) => do
      guard (way.mayEnter origin)
      return entries.put key (.table origin (← update way change place origin inner))
    | some (.tables earlier last) => do
      return entries.put key (.tables earlier (← update way change place .header last))
    | some _ => none

/-- A table can get a header if it was only part of other headers so far. -/
def openTable (name : String) (entries : Entries) : Option Entries :=
  match entries.find? name with
  | none => some (entries.put name (.table .header []))
  | some (.table .implied inner) => some (entries.put name (.table .header inner))
  | some _ => none

def appendTable (name : String) (entries : Entries) : Option Entries :=
  match entries.find? name with
  | none => some (entries.put name (.tables [] []))
  | some (.tables earlier last) => some (entries.put name (.tables (earlier ++ [last]) []))
  | some _ => none

/-- Gives a key its value. The last table on the way of a dotted key must have come about by a
dotted key, and a key is given once. -/
def assign (key : List String) (value : Value) (origin : Origin) (entries : Entries) :
    Option Entries := do
  let name ← key.getLast?
  let place := key.dropLast
  update .key (fun origin entries => do
    guard (decide (origin = .dotted) != place.isEmpty)
    guard (!entries.contains name)
    return entries.put name value) place origin entries

structure Document where
  entries : Entries
  place : List String

namespace Document

def empty : Document := ⟨[], []⟩

def enter (open_ : String → Entries → Option Entries) (d : Document) (place : List String) :
    Option Document := do
  let name ← place.getLast?
  let open_ _ entries := open_ name entries
  let entries ← update .header open_ place.dropLast .header d.entries
  return ⟨entries, place⟩

def add (d : Document) (key : List String) (value : Value) : Option Document := do
  return { d with entries := ← update .header (assign key value) d.place .header d.entries }

end Document

end Toml

end PhpAnalyser
