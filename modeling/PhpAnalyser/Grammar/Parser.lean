import PhpAnalyser.Grammar.Naming
import PhpAnalyser.Lexeme.Stream
import PhpAnalyser.Syntax.Fault
import PhpAnalyser.Syntax.Tree
/-!
Readers of syntax: what a production can do with the tokens, the nodes made so far, the names in
effect and the errors found. A failed production leaves the state as it was when it failed, so
reading can go on from there. Only a reader that is stuck, because it looks for a node that was
never made or repeats a step without end, has no outcome at all.
-/
namespace PhpAnalyser

structure ParserState where
  stream : TokenStream
  nodes : Array Node
  names : NameContext
  /-- The type whose body surrounds the current token. -/
  scope : Option TypeScope
  /-- The last token taken that is no close tag. -/
  last : Span
  /-- The number of statements and expressions being read. -/
  depth : Nat
  /-- The grammar errors that reading went on from, in order. -/
  errors : List ParseError

abbrev Parser := ExceptT ParseError (StateT ParserState Option)

def ParserState.initial (stream : TokenStream) : ParserState :=
  ⟨stream, #[], .ofNamespace "", none, .origin, 0, []⟩

/-- Takes the current token; the mark of the end stays. -/
def ParserState.advance (s : ParserState) : ParserState :=
  match s.stream.next? with
  | none => s
  | some (token, stream) =>
    { s with stream, last := if token.kind = .closeTag then s.last else token.span }

namespace Parser

/-- Reading that has no outcome. -/
def stuck : Parser α := fun _ => none

/-! ### Tokens -/

def current : Parser Token := return (← get).stream.current

def ahead (k : Nat) : Parser Token := return (← get).stream.peek k

def remaining : Parser Nat := return (← get).stream.remaining

def advance : Parser Token := do
  let token ← current
  modify ParserState.advance
  return token

def skip : Parser Unit := modify ParserState.advance

def check (kind : TokenKind) : Parser Bool := return (← current).kind = kind

def checkOperator (op : String) : Parser Bool := return (← current).isOperator op

def eat (kind : TokenKind) : Parser Bool := do
  if ← check kind then
    skip
    return true
  return false

def eatOperator (op : String) : Parser Bool := do
  if ← checkOperator op then
    skip
    return true
  return false

def unexpected (expected : List String) : Parser α := do
  let token ← current
  let fault := match token.kind with
    | .eof => .tokenStreamEnd expected
    | .error fault => .lex fault
    | _ => .unexpectedToken expected token.text
  throw ⟨fault, token.span⟩

def expect (kind : TokenKind) (expected : String) : Parser Token := do
  if ← check kind then advance else unexpected [expected]

def expectOperator (op expected : String) : Parser Unit := do
  if ← checkOperator op then skip else unexpected [expected]

/-! ### Nodes -/

def spanFrom (start : Span) : Parser Span := return start.merge (← get).last

def nodeAt (i : Nat) : Parser Node := do
  match (← get).nodes[i]? with
  | some node => return node
  | none => stuck

def kindOf (i : Nat) : Parser NodeKind := return (← nodeAt i).kind

def spanFromNode (i : Nat) : Parser Span := do spanFrom (← nodeAt i).span

def push (kind : NodeKind) (span : Span) (children : List Nat) : Parser Nat := do
  let s ← get
  if children.all (· < s.nodes.size) then
    set { s with nodes := adopt s.nodes kind span children }
    return s.nodes.size
  stuck

def finish (kind : NodeKind) (start : Span) (children : List Nat) : Parser Nat := do
  push kind (← spanFrom start) children

/-- Makes a node from the start of `base`, its first child, to the last token taken. -/
def wrap (kind : NodeKind) (base : Nat) (rest : List Nat) : Parser Nat := do
  push kind (← spanFromNode base) (base :: rest)

def setDocComment (i : Nat) (doc : Option String) : Parser Unit := do
  let s ← get
  if i < s.nodes.size then set { s with nodes := annotate s.nodes i doc } else stuck

/-- Ends a statement; a close tag does not belong to its span. -/
def finishStatement (start : Span) : Parser Span := do
  let token ← current
  if token.kind = .semicolon then
    skip
    spanFrom start
  else if token.kind = .closeTag then
    let span ← spanFrom start
    skip
    return span
  else unexpected ["';'"]

def pushStatement (kind : NodeKind) (start : Span) (children : List Nat) : Parser Nat := do
  push kind (← finishStatement start) children

/-! ### Control -/

def maxNesting : Nat := 64

/-- Applies `restore` to the state behind `p`, whether or not `p` fails. -/
def restoring (restore : ParserState → ParserState) (p : Parser α) : Parser α := fun s => do
  let (result, s') ← p s
  return (result, restore s')

def enterNesting : Parser Unit := do
  modify fun s => { s with depth := s.depth + 1 }
  let s ← get
  if s.depth > maxNesting then throw ⟨.nestingTooDeep maxNesting, s.stream.current.span⟩

def nested (p : Parser α) : Parser α := do
  enterNesting
  restoring (fun s => { s with depth := s.depth - 1 }) p

def withScope (scope : Option TypeScope) (p : Parser α) : Parser α := do
  let s ← get
  set { s with scope }
  restoring (fun s' => { s' with scope := s.scope }) p

def onlyIf (wanted : Bool) (p : Parser α) : Parser (List α) := do
  if wanted then return [← p] else return []

def iterate (step : β → Parser (ForInStep β)) : Nat → β → Parser β
  | 0, _ => stuck
  | fuel + 1, b => do
    match ← step b with
    | .done b => return b
    | .yield b => iterate step fuel b

/-- Repeats a step until it is done. A step that goes on has taken a token, so the tokens left
bound their number. -/
def repeatFrom (b : β) (step : β → Parser (ForInStep β)) : Parser β := do
  iterate step ((← remaining) + 1) b

def commaSeparated (item : Parser α) : Parser (List α) :=
  repeatFrom [] fun items => do
    let items := items ++ [← item]
    if ← eat .comma then return .yield items else return .done items

/-- The values of `item` up to the token that closes the list, which may follow a comma. -/
def commaList (close : TokenKind) (item : Parser α) : Parser (List α) :=
  repeatFrom [] fun items => do
    if ← check close then return .done items
    let items := items ++ [← item]
    if ← eat .comma then return .yield items else return .done items

def startsStatement : Keyword → Bool
  | .if_ | .while_ | .do_ | .for_ | .foreach_ | .switch_ | .return_ | .echo_ | .try_ | .class_
  | .interface_ | .trait_ | .function_ | .abstract_ | .final_ | .public_ | .protected_
  | .private_ | .case_ | .default_ | .namespace_ => true
  | _ => false

/-- Skips the current token and goes on to just behind the next end of a statement, or to a
closing brace or a word that starts a statement. -/
def synchronize : Parser Unit := do
  skip
  repeatFrom () fun _ => do
    let token ← current
    match token.kind with
    | .eof | .rightBrace => return .done ()
    | .semicolon | .closeTag =>
      skip
      return .done ()
    | .keyword word =>
      if startsStatement word then return .done ()
      skip
      return .yield ()
    | _ =>
      skip
      return .yield ()

/-- Notes a grammar error and goes on behind it; any other error stays one. -/
def recover (depth : Nat) (error : ParseError) : Parser Unit := do
  if error.fault.isRecoverable then
    modify fun s => { s with errors := s.errors ++ [error], depth }
    synchronize
  else throw error

/-- The nodes of `item`, again and again up to a token that `stop` accepts or the end of the
text, recovering from grammar errors on the way. -/
def recovering (stop : Token → Bool) (item : Parser (List Nat)) : Parser (List Nat) :=
  repeatFrom [] fun items => do
    let s ← get
    if s.stream.atEnd || stop s.stream.current then return .done items
    tryCatch (do return .yield (items ++ (← item))) fun error => do
      recover s.depth error
      return .yield items

/-! ### Names -/

def isWord : TokenKind → Bool
  | .identifier | .keyword _ => true
  | _ => false

/-- The segments of a name behind `written`, which ends in a backslash or in a segment. -/
def nameTail (written : String) : Parser String :=
  repeatFrom written fun written => do
    let token ← current
    if written.toList.getLast? = some '\\' then
      if isWord token.kind then
        skip
        return .yield (written ++ token.text)
      unexpected ["name"]
    else if token.kind = .backslash && isWord (← ahead 1).kind then
      skip
      return .yield (written ++ "\\")
    else return .done written

def nameHead : Parser String := do
  let token ← current
  if token.kind = .keyword .namespace_ && (← ahead 1).kind = .backslash then
    skip
    return "namespace"
  else if token.kind = .backslash then
    skip
    return "\\"
  else if token.kind = .identifier then
    skip
    return token.text
  else unexpected ["name"]

def name : Parser (String × Span) := do
  let start := (← current).span
  let written ← nameTail (← nameHead)
  return (written, ← spanFrom start)

def className : Parser String := do
  let (written, _) ← name
  return (← get).names.resolve written

def classNames : Parser (List String) := commaSeparated className

def memberName : Parser Token := do
  if isWord (← current).kind then advance else unexpected ["identifier"]

def builtinTypes : List String :=
  ["bool", "int", "float", "string", "iterable", "callable", "object", "mixed", "void", "null",
    "never", "false", "true"]

def typeAtom : Parser String := do
  let token ← current
  match token.kind with
  | .keyword .array_ | .keyword .self_ | .keyword .static_ =>
    skip
    return asciiLower token.text
  | .identifier | .backslash | .keyword .namespace_ =>
    let (written, _) ← name
    if builtinTypes.contains (asciiLower written) then return asciiLower written
    return (← get).names.resolve written
  | _ => unexpected ["type"]

def typeHint : Parser String := do
  let optional ← eat .question
  repeatFrom (if optional then "?" else "") fun hint => do
    let hint := hint ++ (← typeAtom)
    if ← eatOperator "|" then return .yield (hint ++ "|") else return .done hint

def returnType : Parser Unit := do
  if ← eat .colon then discard typeHint

end Parser

end PhpAnalyser
