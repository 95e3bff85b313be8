import PhpAnalyser.Text.Character
/-!
How written names are qualified: by the namespace around them and by the imports in effect.
-/
namespace PhpAnalyser

/-- The text behind the word `namespace` and a backslash, if the name starts with them. -/
def relativeName? (written : String) : Option String :=
  let chars := written.toList
  if sameAsciiCase (String.ofList (chars.take 10)) "namespace\\" then
    some (String.ofList (chars.drop 10))
  else none

/-- The current namespace, empty for the global one, and the imports by lowercase short name,
the latest first. -/
structure NameContext where
  package : String
  imports : List (String × String)
  deriving DecidableEq, Repr

namespace NameContext

def ofNamespace (name : String) : NameContext := ⟨name, []⟩

def addImport (names : NameContext) (shortName name : String) : NameContext :=
  { names with imports := (asciiLower shortName, name) :: names.imports }

def qualify (names : NameContext) (name : String) : String :=
  if names.package = "" then name else joinName names.package name

/-- Imports apply to the first segment of a name that is neither absolute nor relative. -/
def resolveImported (names : NameContext) (written : String) : String :=
  let (first, behind) := splitName written.toList
  match names.imports.lookup (asciiLower (String.ofList first)), behind with
  | some imported, none => imported
  | some imported, some rest => joinName imported (String.ofList rest)
  | none, _ => names.qualify written

def resolve (names : NameContext) (written : String) : String :=
  match written.toList with
  | '\\' :: absolute => String.ofList absolute
  | _ =>
    match relativeName? written with
    | some relative =>
      if relative = "" then names.resolveImported written else names.qualify relative
    | none => names.resolveImported written

end NameContext

structure TypeScope where
  name : String
  isClass : Bool
  parent : Option String
  deriving DecidableEq, Repr

end PhpAnalyser
