import PhpAnalyser.Grammar.Statement
/-!
Whole files: imports, namespaces, and the tree of a source text or all errors found in it.
-/
namespace PhpAnalyser

namespace Parser

/-- The readers at `levels` above the deepest nesting. -/
def nestedAt : Nat → Nested
  | 0 => ⟨fun _ => nested stuck, nested stuck⟩
  | levels + 1 =>
    let inner := nestedAt levels
    ⟨fun least => nested (binary inner least), nested (statement inner)⟩

def outermost : Nested := nestedAt maxNesting

/-! ### Imports -/

def importAlias (name : String) : Parser String := do
  if ← eat (.keyword .as_) then return (← expect .identifier "alias name").text
  return lastSegment name

def importClause (start : Span) (name : String) (recorded : Bool) : Parser (List Nat) := do
  let shortName ← importAlias name
  if !recorded then return []
  modify fun s => { s with names := s.names.addImport shortName name }
  return [← finish (.useImport name shortName) start []]

def importGroup (start : Span) (group : String) (recorded : Bool) : Parser (List Nat) :=
  repeatFrom [] fun ids => do
    let (written, _) ← name
    let ids := ids ++ (← importClause start (joinName group written) recorded)
    if !(← eat .comma) then return .done ids
    if ← check .rightBrace then return .done ids
    return .yield ids

def importItem (recorded : Bool) : Parser (List Nat) := do
  let start := (← current).span
  let (written, _) ← name
  let absolute := dropLeadingBackslashes written
  if (← check .backslash) && (← ahead 1).kind = .leftBrace then
    skip
    skip
    let ids ← importGroup start absolute recorded
    discard <| expect .rightBrace "'\x7d'"
    return ids
  importClause start absolute recorded

/-- Imports of functions and constants, which a word marks, are read but leave no trace. -/
def importsTypes : Parser Bool := do
  let token ← current
  if token.kind = .keyword .function_ || token.kind = .keyword .const_ then
    skip
    return false
  return true

def imports : Parser (List Nat) := do
  let start ← advance
  let recorded ← importsTypes
  let ids ← commaSeparated (importItem recorded)
  discard <| finishStatement start.span
  return ids.flatten

/-! ### Namespaces -/

def packageName : Parser String := do
  if ← check .identifier then
    let (written, _) ← name
    return written
  return ""

/-- The contents of a namespace that started at `start`: those in braces, or all up to the next
one. -/
def namespaceBody (item : Parser (List Nat)) (start : Span) : Parser (List Nat) := do
  if ← eat .leftBrace then
    let ids ← recovering (fun t => t.kind = .rightBrace) item
    discard <| expect .rightBrace "'\x7d'"
    return ids
  discard <| finishStatement start
  recovering (fun t => t.kind = .keyword .namespace_) item

/-- The names of a namespace replace those in effect. -/
def namespaceDeclaration (item : Parser (List Nat)) : Parser Nat := do
  let start ← advance
  let package ← packageName
  modify fun s => { s with names := .ofNamespace package }
  let ids ← namespaceBody item start.span
  finish (.namespace_ package) start.span ids

/-- A statement of a file or of a namespace. Each namespace around it took a level of `fuel`. -/
def topStatement : Nat → Parser (List Nat)
  | 0 => stuck
  | fuel + 1 => do
    let token ← current
    if token.kind = .keyword .namespace_ && (← ahead 1).kind ≠ .backslash then
      return [← namespaceDeclaration (topStatement fuel)]
    if token.kind = .keyword .use_ then return ← imports
    return (← outermost.statement).toList

def hull (ids : List Nat) : Parser Span := do
  match ids.head?, ids.getLast? with
  | some first, some last => return (← nodeAt first).span.merge (← nodeAt last).span
  | _, _ => return .origin

def compilationUnit : Parser Nat := do
  let ids ← recovering (fun _ => false) (do topStatement (← remaining))
  push .compilationUnit (← hull ids) ids

end Parser

/-- The tree of the tokens from the current one on, or the errors in the order they were found;
nothing if the parser gets stuck. -/
def parseTokens? (stream : TokenStream) (file : Nat) :
    Option (Except (List ParseError) SyntaxTree) :=
  match Parser.compilationUnit (.initial stream) with
  | some (.ok root, s) =>
    some (if s.errors.isEmpty then .ok ⟨file, s.nodes, root⟩ else .error s.errors)
  | some (.error fatal, s) => some (.error (s.errors ++ [fatal]))
  | none => none

def parseTokens (stream : TokenStream) (file : Nat) : Except (List ParseError) SyntaxTree :=
  (parseTokens? stream file).getD (.error [])

def parse (source : String) (file : Nat) : Except (List ParseError) SyntaxTree :=
  parseTokens (.ofSource source) file

end PhpAnalyser
