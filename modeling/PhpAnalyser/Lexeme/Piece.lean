import PhpAnalyser.Lexeme.Token
/-!
The first piece of a text, a token or a piece of trivia. A piece is its first character and a
number of further ones, so taking it always shortens the text.
-/
namespace PhpAnalyser

inductive PieceKind where
  | trivia (kind : TriviaKind)
  | token (kind : TokenKind)
  deriving DecidableEq, Repr

/-- `extra` counts the characters after the first one; `inProgram` tells whether the text behind
the piece is program text. -/
structure Shape where
  kind : PieceKind
  extra : Nat
  inProgram : Bool
  deriving DecidableEq, Repr

def Shape.trivia (kind : TriviaKind) (extra : Nat) : Shape := ⟨.trivia kind, extra, true⟩

def Shape.token (kind : TokenKind) (extra : Nat) : Shape := ⟨.token kind, extra, true⟩

namespace Lexeme

def spaceOrTab (c : Char) : Bool := c == ' ' || c == '\t'

def run (p : Char → Bool) (text : List Char) : Nat := (text.takeWhile p).length

/-! ### Trivia -/

def htmlLength : List Char → Nat
  | '<' :: '?' :: _ => 0
  | _ :: text => htmlLength text + 1
  | [] => 0

def lineLength : List Char → Nat
  | '\n' :: _ => 0
  | '?' :: '>' :: _ => 0
  | _ :: text => lineLength text + 1
  | [] => 0

def blockLength : List Char → Option Nat
  | '*' :: '/' :: _ => some 2
  | _ :: text => (blockLength text).map (· + 1)
  | [] => none

def blockComment (text : List Char) : Shape :=
  match blockLength text with
  | none => .token (.error .unterminatedComment) (text.length + 1)
  | some n =>
    if startsWith text "*" && !startsWith text "*/" then .trivia .docComment (n + 1)
    else .trivia .blockComment (n + 1)

/-! ### Numbers -/

def digitOrLine (c : Char) : Bool := c.isDigit || c == '_'

def hexDigitOrLine (c : Char) : Bool :=
  c.isDigit || ('a' ≤ c && c ≤ 'f') || ('A' ≤ c && c ≤ 'F') || c == '_'

def binaryDigitOrLine (c : Char) : Bool := c == '0' || c == '1' || c == '_'

/-- A point counts only in front of a digit. -/
def fractionLength : List Char → Nat
  | '.' :: d :: text => if d.isDigit then run digitOrLine text + 2 else 0
  | _ => 0

def exponentLength : List Char → Nat
  | e :: s :: text =>
    if e == 'e' || e == 'E' then
      if s.isDigit then run Char.isDigit text + 2
      else if s == '+' || s == '-' then
        match text with
        | d :: text => if d.isDigit then run Char.isDigit text + 3 else 0
        | [] => 0
      else 0
    else 0
  | _ => 0

/-- A number without its first character, of which `text` is what is left behind the digits
before the point. -/
def decimal (whole : Nat) (text : List Char) : TokenKind × Nat :=
  let fraction := fractionLength text
  let exponent := exponentLength (text.drop fraction)
  (if fraction + exponent = 0 then .integer else .float, whole + fraction + exponent)

def number (first : Char) (text : List Char) : TokenKind × Nat :=
  match first, text with
  | '0', 'x' :: digits => (.integer, run hexDigitOrLine digits + 1)
  | '0', 'X' :: digits => (.integer, run hexDigitOrLine digits + 1)
  | '0', 'b' :: digits => (.integer, run binaryDigitOrLine digits + 1)
  | '0', 'B' :: digits => (.integer, run binaryDigitOrLine digits + 1)
  | _, _ =>
    let whole := run digitOrLine text
    decimal whole (text.drop whole)

def pointNumber (text : List Char) : TokenKind × Nat :=
  let fraction := run digitOrLine text
  (.float, fraction + exponentLength (text.drop fraction))

/-! ### Strings -/

/-- The characters up to the end of the innermost open strings, the last quote included. Each
open string has its quote and the number of open braces in it: only a brace in front of a
variable opens one, and only inside braces does another quote open a string of its own. -/
def quotedLength : List (Char × Nat) → List Char → Option Nat
  | [], _ => some 0
  | _ :: _, [] => none
  | _ :: _, ['\\'] => none
  | stack@(_ :: _), '\\' :: _ :: text => (quotedLength stack text).map (· + 2)
  | (quote, braces) :: outer, c :: text =>
    let stack :=
      if c == '{' && quote != '\'' && startsWith text "$" then (quote, braces + 1) :: outer
      else if c == '}' && braces > 0 then (quote, braces - 1) :: outer
      else if (c == '\'' || c == '"') && braces > 0 && c != quote then
        (c, 0) :: (quote, braces) :: outer
      else if c == quote && braces == 0 then outer
      else (quote, braces) :: outer
    (quotedLength stack text).map (· + 1)

def quoted (quote : Char) (text : List Char) : TokenKind × Nat :=
  match quotedLength [(quote, 0)] text with
  | some n => (.string, n)
  | none => (.error .unterminatedString, text.length)

/-- How much of a line belongs to a heredoc that ends there: its indentation and its label. -/
def heredocEnd (label line : List Char) : Option Nat :=
  let indent := run spaceOrTab line
  let rest := line.drop indent
  if label.isPrefixOf rest && run continuesName (rest.drop label.length) = 0 then
    some (indent + label.length)
  else none

def heredocLength (label : List Char) : List Char → Option Nat
  | [] => none
  | c :: text =>
    match if c = '\n' then heredocEnd label text else none with
    | some n => some (n + 1)
    | none => (heredocLength label text).map (· + 1)

def heredoc (text : List Char) : TokenKind × Nat :=
  let blanks := run spaceOrTab text
  let start := text.drop blanks
  let quotes := if startsWith start "'" || startsWith start "\"" then 1 else 0
  let label := (start.drop quotes).takeWhile continuesName
  let body := (start.drop quotes).drop label.length
  let opening := blanks + quotes + label.length + min quotes body.length
  let fault := .error (.unterminatedHeredoc (String.ofList label))
  if label = [] then (fault, opening)
  else
    match heredocLength label (body.drop quotes) with
    | some n => (.string, opening + n)
    | none => (fault, text.length)

/-! ### Symbols -/

def castTypes : List String :=
  ["int", "integer", "bool", "boolean", "float", "double", "real", "string", "array", "object",
    "unset", "binary"]

def castLength (text : List Char) : Option Nat :=
  let before := run spaceOrTab text
  let word := (text.drop before).takeWhile Char.isAlpha
  let behind := text.drop (before + word.length)
  let after := run spaceOrTab behind
  if castTypes.contains (asciiLower (String.ofList word)) && startsWith (behind.drop after) ")" then
    some (before + word.length + after + 1)
  else none

/-- The symbols, each behind those that it starts. -/
def symbols : List (String × TokenKind) :=
  [("===", .operator), ("!==", .operator), ("<=>", .operator), ("**=", .operator),
    ("<<=", .operator), (">>=", .operator), ("??=", .operator), ("?->", .arrow),
    ("...", .ellipsis), ("?>", .closeTag), ("->", .arrow), ("=>", .doubleArrow),
    ("::", .doubleColon), ("==", .operator), ("!=", .operator), ("<>", .operator),
    ("<=", .operator), (">=", .operator), ("&&", .operator), ("||", .operator),
    ("++", .operator), ("--", .operator), ("+=", .operator), ("-=", .operator),
    ("*=", .operator), ("/=", .operator), (".=", .operator), ("%=", .operator),
    ("&=", .operator), ("|=", .operator), ("^=", .operator), ("<<", .operator),
    (">>", .operator), ("??", .operator), ("**", .operator), (";", .semicolon), (",", .comma),
    ("(", .leftParen), (")", .rightParen), ("\x7b", .leftBrace), ("\x7d", .rightBrace),
    ("[", .leftBracket), ("]", .rightBracket), (":", .colon), ("?", .question),
    ("\\", .backslash), ("+", .operator), ("-", .operator), ("*", .operator), ("/", .operator),
    ("%", .operator), ("=", .operator), ("<", .operator), (">", .operator), ("!", .operator),
    (".", .operator), ("&", .operator), ("|", .operator), ("^", .operator), ("~", .operator),
    ("@", .operator)]

def symbol (first : Char) (text : List Char) : TokenKind × Nat :=
  match symbols.find? (fun entry => startsWith (first :: text) entry.1) with
  | some (spelling, kind) => (kind, spelling.length - 1)
  | none => (.error (.unexpectedCharacter first), 0)

/-! ### Pieces -/

def nameToken (first : Char) (text : List Char) : TokenKind × Nat :=
  let rest := text.takeWhile continuesName
  ((Keyword.ofName? (String.ofList (first :: rest))).elim .identifier .keyword, rest.length)

def tokenShape (first : Char) (text : List Char) : TokenKind × Nat :=
  if first = '$' then
    if text.head?.any startsName then (.variable, run continuesName text) else (.dollar, 0)
  else if startsName first then nameToken first text
  else if first.isDigit then number first text
  else if first = '.' && text.head?.any Char.isDigit then pointNumber text
  else if first = '\'' || first = '"' || first.toNat = 0x60 then quoted first text
  else if first = '<' && startsWith text "<<" then
    let (kind, length) := heredoc (text.drop 2)
    (kind, length + 2)
  else if first = '<' && startsWith text "?=" then (.keyword .echo_, 2)
  else if first = '(' then
    match castLength text with
    | some n => (.cast, n)
    | none => symbol first text
  else symbol first text

def programShape (first : Char) (text : List Char) : Shape :=
  if isBlank first then .trivia .whitespace (run isBlank text)
  else if first = '#' then .trivia .lineComment (lineLength text)
  else if first = '/' && startsWith text "/" then .trivia .lineComment (lineLength text)
  else if first = '/' && startsWith text "*" then blockComment (text.drop 1)
  else
    let (kind, extra) := tokenShape first text
    ⟨.token kind, extra, kind ≠ .closeTag⟩

/-- Outside the tags all text up to the next open tag is trivia. The short echo tag is a token of
the program text that it opens. -/
def shapeOf (inProgram : Bool) (first : Char) (text : List Char) : Shape :=
  if inProgram then programShape first text
  else if first = '<' && startsWith text "?=" then programShape first text
  else if first = '<' && startsWith text "?" then
    let long := asciiLower (String.ofList ((text.drop 1).take 3)) == "php"
    .trivia .openTag (if long then 4 else 1)
  else ⟨.trivia .inlineHtml, htmlLength text, false⟩

end Lexeme

structure Piece where
  kind : PieceKind
  text : List Char
  deriving DecidableEq, Repr

def pieces (inProgram : Bool) : List Char → List Piece
  | [] => []
  | first :: text =>
    let shape := Lexeme.shapeOf inProgram first text
    ⟨shape.kind, first :: text.take shape.extra⟩ ::
      pieces shape.inProgram (text.drop shape.extra)
  termination_by text => text.length
  decreasing_by simp only [List.length_drop, List.length_cons]; omega

theorem flat_map_pieces (inProgram : Bool) (text : List Char) :
    (pieces inProgram text).flatMap (·.text) = text := by
  fun_induction pieces inProgram text with
  | case1 => rfl
  | case2 inProgram first text shape ih => simp [ih]

end PhpAnalyser
