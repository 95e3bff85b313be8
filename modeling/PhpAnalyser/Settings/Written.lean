import PhpAnalyser.Files.Tree
import PhpAnalyser.Settings.Basic
import PhpAnalyser.Text.Utf8
import PhpAnalyser.Toml.Document
/-!
Settings as TOML, where all sections and keys may be left out and no others may be there, and the
file with the settings of an analysis: one that is named, or else the nearest settings file at or
above the first path.
-/
namespace PhpAnalyser

namespace Toml

namespace Value

def text? : Value → Option String
  | string text => some text
  | _ => none

def texts? : Value → Option (List String)
  | array items => items.mapM text?
  | _ => none

/-- The key of the one text in a date or time that is read as a table. -/
def momentKey : String := "$__toml_private_datetime"

def textMap? : Value → Option (SortedMap String)
  | moment m => some [(momentKey, m.text)]
  | table _ entries =>
    (entries.mapM fun entry => (text? entry.2).map (entry.1, ·)).map SortedMap.ofList
  | _ => none

/-- One of some names, which may also be written as a table with nothing but an empty table or
array under the name. -/
def choice? (names : List (String × α)) : Value → Option α
  | string name => names.lookup name
  | table _ [(name, table _ [])] | table _ [(name, array [])] => names.lookup name
  | _ => none

/-- The fields of a section: a table with known keys, or a list of the values in the order of
those keys. -/
def fields? (keys : List String) : Value → Option Entries
  | table _ entries => if entries.all fun entry => keys.contains entry.1 then some entries else none
  | array items => some (keys.zip items)
  | tables earlier last => some (keys.zip ((earlier ++ [last]).map (table .header)))
  | _ => none

end Value

def Entries.get (entries : Entries) (key : String) (read : Value → Option α) (otherwise : α) :
    Option α :=
  match entries.find? key with
  | some value => read value
  | none => some otherwise

end Toml

namespace Settings

open Toml

def analysisKeys : List String := ["analyzers", "suffixes"]

def filterKeys : List String := ["exclude-packages", "exclude-paths"]

def reportKeys : List String := ["format", "translation", "rename"]

def sectionKeys : List String := ["analysis", "filter", "report"]

def ofEntries (entries : Entries) : Option Settings := do
  let d := Settings.default
  let sections ← (Value.table .header entries).fields? sectionKeys
  let analysis ← sections.get "analysis" (·.fields? analysisKeys) []
  let filter ← sections.get "filter" (·.fields? filterKeys) []
  let report ← sections.get "report" (·.fields? reportKeys) []
  return {
    analyzers := ← analysis.get "analyzers" (·.texts?.map some) d.analyzers
    suffixes := ← analysis.get "suffixes" (·.texts?) d.suffixes
    excludedPackages := ← filter.get "exclude-packages" (·.texts?) d.excludedPackages
    excludedPaths := ← filter.get "exclude-paths" (·.texts?) d.excludedPaths
    format := ← report.get "format" (Value.choice? ReportFormat.names) d.format
    baseNames := ← report.get "translation" (Value.choice? BaseNames.names) d.baseNames
    rename := ← report.get "rename" (·.textMap?) d.rename }

def parse (text : String) : Option Settings := do ofEntries (← Toml.parse text)

def fileName : String := "strata.toml"

inductive Fault where
  | unreadable (path : String)
  | invalid (path : String)
  deriving DecidableEq, Repr

def candidates (isFile : Bool) (start : String) : List String :=
  (if isFile then Path.above start else start :: Path.above start).map (Path.join · fileName)

variable (t : FileTree)

def find? (start : String) : Option String :=
  (candidates (t.isFile start) start).find? t.isFile

def read (path : String) : Except Fault Settings :=
  match (t.read? path).map decodeSource with
  | some (.ok text) => (parse text).elim (.error (.invalid path)) .ok
  | _ => .error (.unreadable path)

def load (named : Option String) (start : String) : Except Fault Settings :=
  match named <|> find? t start with
  | some path => read t path
  | none => .ok default

end Settings

end PhpAnalyser
