import PhpAnalyser.Toml.Value
/-!
TOML texts: keys, values, headers, and the table that a whole text stands for.
-/
namespace PhpAnalyser

namespace Toml

namespace Reader

def isBareChar (c : Char) : Bool := c.isAlphanum || c = '-' || c = '_'

def quotedKey : Reader (List Char) := ofStep fun s =>
  match s with
  | '"' :: rest => basic rest
  | '\'' :: rest => literal rest
  | _ => none

def bareKey : Reader (List Char) := do
  let first ← satisfy isBareChar
  return first :: (← takeWhile isBareChar)

/-- The greatest number of arrays and tables in one another, and of parts in a key. -/
def maxDepth : Nat := 79

def dottedKey : Nat → Reader (List String)
  | 0 => failure
  | fuel + 1 => do
    blanks
    let name := String.ofList (← quotedKey <|> bareKey)
    blanks
    if ← eat '.' then return name :: (← dottedKey fuel)
    return [name]

def key : Reader (List String) := dottedKey maxDepth

def assignment (value : Reader Value) : Reader (List String × Value) := do
  let key ← key
  char '='
  blanks
  return (key, ← value)

def items (value : Reader Value) : Nat → Reader (List Value)
  | 0 => failure
  | fuel + 1 => do
    gap (← rest).length
    if ← eat ']' then return []
    let item ← value
    gap (← rest).length
    if ← eat ',' then return item :: (← items value fuel)
    char ']'
    return [item]

/-- The fields up to the closing brace, at most `fuel` of them. Unlike an item, a field must
follow each comma. -/
def fields (value : Reader Value) : Nat → Entries → Reader Entries
  | 0, _ => failure
  | fuel + 1, entries => do
    let (key, item) ← assignment value
    let entries ← StateT.lift (assign key item .inline_ entries)
    blanks
    if ← eat ',' then fields value fuel entries
    else
      char '}'
      return entries

def array (inner : Reader Value) : Reader Value := do
  char '['
  return .array (← items inner ((← rest).length + 1))

def inlineTable (inner : Reader Value) : Reader Value := do
  char '{'
  blanks
  if ← eat '}' then return .table .inline_ []
  return .table .inline_ (← fields inner ((← rest).length + 1) [])

def plainValue : Reader Value := do
  match (← rest).head? with
  | some '"' | some '\'' => return .string (String.ofList (← ofStep text?))
  | _ => .moment <$> moment <|> (do
    truthValue <|> float <|> integer
    return .scalar)

def value : Nat → Reader Value
  | 0 => plainValue
  | depth + 1 => do
    match (← rest).head? with
    | some '[' => array (value depth)
    | some '{' => inlineTable (value depth)
    | _ => plainValue

def header (d : Document) : Reader Document := do
  let doubled ← (do word "[["; return true) <|> (do char '['; return false)
  let place ← key
  word (if doubled then "]]" else "]")
  lineRest
  StateT.lift (d.enter (if doubled then appendTable else openTable) place)

def keyLine (d : Document) : Reader Document := do
  let (key, item) ← assignment (value maxDepth)
  lineRest
  StateT.lift (d.add key item)

def lines : Nat → Document → Reader Document
  | 0, _ => failure
  | fuel + 1, d => do
    blanks
    match (← rest).head? with
    | none => return d
    | some '#' | some '\n' | some '\r' =>
      lineRest
      lines fuel d
    | some '[' => lines fuel (← header d)
    | some _ => lines fuel (← keyLine d)

end Reader

/-- The table that a text stands for. A byte order mark in front of the text is dropped. -/
def parse (text : String) : Option Entries := do
  let s := match text.toList with
    | '\ufeff' :: rest => rest
    | s => s
  let (d, _) ← (Reader.lines (s.length + 1) .empty).run s
  return d.entries

end Toml

end PhpAnalyser
