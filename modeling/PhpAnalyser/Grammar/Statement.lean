import PhpAnalyser.Grammar.Declaration
/-!
The productions of statements. A control structure holds one statement, or statements between a
colon and its closing word.
-/
namespace PhpAnalyser

namespace Parser

variable (g : Nested)

/-- The body of a control structure; an empty statement makes an empty scope. -/
def body (alternate : Bool) (closing : List Keyword) : Parser Nat := do
  if alternate then
    let start ← expect .colon "':'"
    let inner ← statements g fun t => t.kind.keyword?.any closing.contains
    finish .scope start.span inner
  else
    match ← g.statement with
    | some id => return id
    | none => push .scope (← get).last []

def close (alternate : Bool) (word : Keyword) (expected : String) (kind : NodeKind)
    (start : Span) (children : List Nat) : Parser Nat := do
  if alternate then
    discard <| expect (.keyword word) expected
    pushStatement kind start children
  else finish kind start children

/-! ### Control structures -/

def elseIfBranch (alternate : Bool) : Parser Nat := do
  let start ← advance
  let test ← condition g
  let inner ← body g alternate [.elseIf_, .else_, .endIf_]
  finish .elseIf start.span [test, inner]

def elseBranch (alternate : Bool) : Parser Nat := do
  let start ← advance
  let inner ← body g alternate [.endIf_]
  finish .else_ start.span [inner]

def ifStatement : Parser Nat := do
  let start ← advance
  let test ← condition g
  let alternate ← check .colon
  let first ← body g alternate [.elseIf_, .else_, .endIf_]
  let others ← repeatFrom [] fun others => do
    if ← check (.keyword .elseIf_) then return .yield (others ++ [← elseIfBranch g alternate])
    return .done others
  let last ← onlyIf (← check (.keyword .else_)) (elseBranch g alternate)
  close alternate .endIf_ "'endif'" .if_ start.span (test :: first :: others ++ last)

def whileStatement : Parser Nat := do
  let start ← advance
  let test ← condition g
  let alternate ← check .colon
  let inner ← body g alternate [.endWhile_]
  close alternate .endWhile_ "'endwhile'" .while_ start.span [test, inner]

def doWhileStatement : Parser Nat := do
  let start ← advance
  let inner ← body g false []
  discard <| expect (.keyword .while_) "'while'"
  let test ← condition g
  pushStatement .doWhile start.span [inner, test]

/-- A clause of a `for` makes a node only when it holds an expression. -/
def forClause (kind : NodeKind) (closing : TokenKind) (expected : String) :
    Parser (List Nat) := do
  let start := (← current).span
  let clause ← onlyIf (!(← check closing)) do finish kind start (← expressions g)
  discard <| expect closing expected
  return clause

def forStatement : Parser Nat := do
  let start ← advance
  discard <| expect .leftParen "'('"
  let first ← forClause g .forInit .semicolon "';'"
  let test ← forClause g .forCondition .semicolon "';'"
  let update ← forClause g .forUpdate .rightParen "')'"
  let alternate ← check .colon
  let inner ← body g alternate [.endFor_]
  close alternate .endFor_ "'endfor'" .for_ start.span (first ++ test ++ update ++ [inner])

def foreachTargets : Parser (Bool × List Nat) := do
  let firstByRef ← eatOperator "&"
  let first ← expression g
  if ← eat .doubleArrow then
    let byRef ← eatOperator "&"
    let value ← expression g
    return (byRef, [first, value])
  return (firstByRef, [first])

def foreachStatement : Parser Nat := do
  let start ← advance
  discard <| expect .leftParen "'('"
  let subject ← expression g
  discard <| expect (.keyword .as_) "'as'"
  let (byRef, targets) ← foreachTargets g
  discard <| expect .rightParen "')'"
  let alternate ← check .colon
  let inner ← body g alternate [.endForeach_]
  close alternate .endForeach_ "'endforeach'" (.foreach byRef) start.span
    (subject :: targets ++ [inner])

def endsLabel (t : Token) : Bool :=
  t.kind = .keyword .case_ || t.kind = .keyword .default_ || t.kind = .keyword .endSwitch_ ||
    t.kind = .rightBrace

def labelTest : Parser (Bool × List Nat) := do
  let token ← current
  if token.kind = .keyword .case_ then
    skip
    return (false, [← expression g])
  else if token.kind = .keyword .default_ then
    skip
    return (true, [])
  else unexpected ["'case'", "'default'", "'\x7d'"]

def labelMark : Parser Unit := do
  let mark ← current
  if mark.kind = .colon || mark.kind = .semicolon then skip else unexpected ["':'", "';'"]

def switchLabel : Parser Nat := do
  let start := (← current).span
  let (isDefault, test) ← labelTest g
  labelMark
  let inner ← statements g endsLabel
  finish (.switchLabel isDefault) start (test ++ inner)

/-- The mark in front of the labels; a colon opens the alternative form. -/
def switchOpening : Parser Bool := do
  if ← eat .colon then return true
  discard <| expect .leftBrace "'\x7b'"
  return false

def switchStatement : Parser Nat := do
  let start ← advance
  let subject ← condition g
  let alternate ← switchOpening
  discard <| eat .semicolon
  let closing : TokenKind := if alternate then .keyword .endSwitch_ else .rightBrace
  let labels ← repeatFrom [] fun labels => do
    if ← check closing then return .done labels
    return .yield (labels ++ [← switchLabel g])
  skip
  if alternate then pushStatement .switch start.span (subject :: labels)
  else finish .switch start.span (subject :: labels)

/-! ### Exceptions -/

def caughtTypes : Parser (List String) :=
  repeatFrom [] fun types => do
    let types := types ++ [← className]
    if ← eatOperator "|" then return .yield types else return .done types

def caughtVariable : Parser String := do
  let token ← current
  if token.kind = .variable then
    skip
    return token.text
  return ""

def catchClause : Parser Nat := do
  let start ← advance
  discard <| expect .leftParen "'('"
  let types ← caughtTypes
  let bound ← caughtVariable
  discard <| expect .rightParen "')'"
  let inner ← block g
  finish (.catch_ types bound) start.span [inner]

def finallyClause : Parser Nat := do
  let start ← advance
  let inner ← block g
  finish .finally_ start.span [inner]

def tryStatement : Parser Nat := do
  let start ← advance
  let inner ← block g
  let clauses ← repeatFrom [] fun clauses => do
    if ← check (.keyword .catch_) then return .yield (clauses ++ [← catchClause g])
    return .done clauses
  let last ← onlyIf (← check (.keyword .finally_)) (finallyClause g)
  if (clauses ++ last).isEmpty then unexpected ["'catch'", "'finally'"]
  else finish .try_ start.span (inner :: clauses ++ last)

/-! ### Simple statements -/

def jump (kind : NodeKind) : Parser Nat := do
  let start ← advance
  let value ← onlyIf (!(← current).kind.isStatementEnd) (expression g)
  pushStatement kind start.span value

def listStatement (kind : NodeKind) : Parser Nat := do
  let start ← advance
  let values ← expressions g
  pushStatement kind start.span values

def throwStatement : Parser Nat := do
  let start ← advance
  let value ← expression g
  pushStatement .throw_ start.span [value]

def unsetStatement : Parser Nat := do
  let start ← advance
  let targets ← callOperands g
  pushStatement .unset start.span targets

/-- A static variable; its first value belongs to it as in an assignment. -/
def staticVariable : Parser Nat := do
  let token ← expect .variable "variable"
  let target ← push (.variable_ token.text) token.span []
  if ← eatOperator "=" then
    let value ← expression g
    push (.assignment "=") (token.span.merge (← nodeAt value).span) [target, value]
  else return target

def staticVariables : Parser Nat := do
  let start ← advance
  let targets ← commaSeparated (staticVariable g)
  pushStatement .staticVariables start.span targets

def expressionStatement : Parser Nat := do
  let start := (← current).span
  let value ← expression g
  pushStatement .expressionStatement start [value]

/-! ### All statements -/

def namesFunction : Parser Bool := do
  let following ← ahead 1
  if following.kind = .identifier then return true
  return following.isOperator "&" && (← ahead 2).kind = .identifier

def keywordStatement (word : Keyword) : Parser Nat := do
  match word with
  | .if_ => ifStatement g
  | .while_ => whileStatement g
  | .do_ => doWhileStatement g
  | .for_ => forStatement g
  | .foreach_ => foreachStatement g
  | .switch_ => switchStatement g
  | .break_ => jump g .break_
  | .continue_ => jump g .continue_
  | .return_ => jump g .return_
  | .echo_ => listStatement g .echo
  | .try_ => tryStatement g
  | .throw_ => throwStatement g
  | .global_ => listStatement g .global
  | .unset_ => unsetStatement g
  | .const_ => constantDeclaration g
  | .static_ =>
    if (← ahead 1).kind = .variable then staticVariables g else expressionStatement g
  | .function_ => if ← namesFunction then functionDeclaration g else expressionStatement g
  | .abstract_ | .final_ | .class_ => classDeclaration g
  | .interface_ => interfaceDeclaration g
  | .trait_ => traitDeclaration g
  | _ => expressionStatement g

def statement : Parser (Option Nat) := do
  match (← current).kind with
  | .semicolon | .closeTag =>
    skip
    return none
  | .leftBrace => some <$> block g
  | .keyword word => some <$> keywordStatement g word
  | _ => some <$> expressionStatement g

end Parser

end PhpAnalyser
