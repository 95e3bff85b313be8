/-!
TOML strings: the four ways to write a text, each read up to its closing mark.
-/
namespace PhpAnalyser

namespace Toml

def isBlankChar (c : Char) : Bool := c = ' ' || c = '\t'

def isTextChar (c : Char) : Bool := c = '\t' || (32 ≤ c.toNat && c.toNat ≠ 127)

def skipBlanks (s : List Char) : List Char := s.dropWhile isBlankChar

def afterNewline? : List Char → Option (List Char)
  | '\n' :: rest => some rest
  | '\r' :: '\n' :: rest => some rest
  | _ => none

def hexValue? (c : Char) : Option Nat :=
  if c.isDigit then some (c.toNat - 48)
  else if 'a' ≤ c ∧ c ≤ 'f' then some (c.toNat - 87)
  else if 'A' ≤ c ∧ c ≤ 'F' then some (c.toNat - 55)
  else none

def hexNumber? (digits : List Char) : Option Nat :=
  digits.foldlM (fun n c => (hexValue? c).map (16 * n + ·)) 0

def codePoint? (digits : List Char) : Option Char := do
  let n ← hexNumber? digits
  guard n.isValidChar
  return Char.ofNat n

def escape? : Char → Option Char
  | 'b' => some '\x08'
  | 't' => some '\t'
  | 'n' => some '\n'
  | 'f' => some '\x0c'
  | 'r' => some '\r'
  | '"' => some '"'
  | '\\' => some '\\'
  | _ => none

def prepend (c : Option Char) (read : Option (List Char × List Char)) :
    Option (List Char × List Char) := do
  let (text, rest) ← read
  return ((← c) :: text, rest)

def basic : List Char → Option (List Char × List Char)
  | [] => none
  | '"' :: rest => some ([], rest)
  | '\\' :: 'u' :: a :: b :: c :: d :: rest => prepend (codePoint? [a, b, c, d]) (basic rest)
  | '\\' :: 'U' :: a :: b :: c :: d :: e :: f :: g :: h :: rest =>
    prepend (codePoint? [a, b, c, d, e, f, g, h]) (basic rest)
  | '\\' :: c :: rest => prepend (escape? c) (basic rest)
  | c :: rest => prepend (if isTextChar c then some c else none) (basic rest)

def literal : List Char → Option (List Char × List Char)
  | [] => none
  | '\'' :: rest => some ([], rest)
  | c :: rest => prepend (if isTextChar c then some c else none) (literal rest)

/-- The end of a text of many lines: up to two more of the closing marks belong to the text. -/
def closing (mark : Char) : List Char → List Char × List Char
  | a :: b :: rest =>
    if a = mark then if b = mark then ([a, b], rest) else ([a], b :: rest) else ([], a :: b :: rest)
  | a :: rest => if a = mark then ([a], rest) else ([], a :: rest)
  | [] => ([], [])

/-- Up to three quotation marks. A reverse solidus at the end of a line drops all blanks and line
ends behind it, which is what `skipping` is for. -/
def multiBasic (skipping : Bool) : List Char → Option (List Char × List Char)
  | [] => none
  | '"' :: '"' :: '"' :: rest => some (closing '"' rest)
  | '\r' :: '\n' :: rest =>
    if skipping then multiBasic true rest else prepend (some '\n') (multiBasic false rest)
  | '\\' :: 'u' :: a :: b :: c :: d :: rest =>
    prepend (codePoint? [a, b, c, d]) (multiBasic false rest)
  | '\\' :: 'U' :: a :: b :: c :: d :: e :: f :: g :: h :: rest =>
    prepend (codePoint? [a, b, c, d, e, f, g, h]) (multiBasic false rest)
  | '\\' :: c :: rest =>
    if (afterNewline? (skipBlanks (c :: rest))).isSome then multiBasic true (c :: rest)
    else prepend (escape? c) (multiBasic false rest)
  | c :: rest =>
    if skipping && (isBlankChar c || c = '\n') then multiBasic true rest
    else prepend (if isTextChar c || c = '\n' then some c else none) (multiBasic false rest)

def multiLiteral : List Char → Option (List Char × List Char)
  | [] => none
  | '\'' :: '\'' :: '\'' :: rest => some (closing '\'' rest)
  | '\r' :: '\n' :: rest => prepend (some '\n') (multiLiteral rest)
  | c :: rest => prepend (if isTextChar c || c = '\n' then some c else none) (multiLiteral rest)

def afterOpening (s : List Char) : List Char := (afterNewline? s).getD s

def text? : List Char → Option (List Char × List Char)
  | '"' :: '"' :: '"' :: rest => multiBasic false (afterOpening rest)
  | '\'' :: '\'' :: '\'' :: rest => multiLiteral (afterOpening rest)
  | '"' :: rest => basic rest
  | '\'' :: rest => literal rest
  | _ => none

end Toml

end PhpAnalyser
