import PhpAnalyser.Grammar.Parser
import PhpAnalyser.Grammar.Precedence
/-!
The productions of expressions. Expressions and statements contain each other, so a production
takes the readers for what is nested in it.
-/
namespace PhpAnalyser

/-- The readers for nested expressions, which binary operators may end, and statements. -/
structure Nested where
  expression : Nat → Parser Nat
  statement : Parser (Option Nat)

namespace Parser

variable (g : Nested)

def expression : Parser Nat := g.expression 0

def expressions : Parser (List Nat) := commaSeparated (expression g)

/-- `( expression )` without a node of its own. -/
def condition : Parser Nat := do
  discard <| expect .leftParen "'('"
  let inner ← expression g
  discard <| expect .rightParen "')'"
  return inner

def braced : Parser Nat := do
  let inner ← expression g
  discard <| expect .rightBrace "'\x7d'"
  return inner

/-! ### Statements in braces -/

/-- Statements up to a token that `stop` accepts; an empty one makes no node. -/
def statements (stop : Token → Bool) : Parser (List Nat) :=
  recovering stop do return (← g.statement).toList

def block : Parser Nat := do
  let start ← expect .leftBrace "'\x7b'"
  let body ← statements g fun t => t.kind = .rightBrace
  discard <| expect .rightBrace "'\x7d'"
  finish .scope start.span body

/-! ### Parameters and arguments -/

def promotes : Parser Bool := do
  let token ← current
  match token.kind with
  | .keyword .public_ | .keyword .protected_ | .keyword .private_ => return true
  | .identifier =>
    return sameAsciiCase token.text "readonly" && (← ahead 1).kind ≠ .leftParen
  | _ => return false

def promotions : Parser Unit :=
  repeatFrom () fun _ => do
    if ← promotes then
      skip
      return .yield ()
    return .done ()

def parameterHint : Parser (Option String) := do
  let token ← current
  if token.kind = .variable || token.kind = .ellipsis || token.isOperator "&" then return none
  some <$> typeHint

def formalParameter : Parser Nat := do
  let start := (← current).span
  promotions
  let hint ← parameterHint
  let byRef ← eatOperator "&"
  let variadic ← eat .ellipsis
  let parameter ← expect .variable "parameter variable"
  let value ← onlyIf (← eatOperator "=") (expression g)
  finish (.formalParameter parameter.text hint byRef variadic) start value

def formalParameters : Parser Nat := do
  let start ← expect .leftParen "'('"
  let parameters ← commaList .rightParen (formalParameter g)
  discard <| expect .rightParen "')'"
  finish .formalParameters start.span parameters

def argumentName : Parser Unit := do
  if isWord (← current).kind && (← ahead 1).kind = .colon then
    skip
    skip

/-- One argument; how it is passed and its name leave no trace. -/
def argument : Parser Nat := do
  discard <| eat .ellipsis
  discard <| eatOperator "&"
  argumentName
  expression g

/-- `( argument, … )`, or `(...)` for the function itself. -/
def arguments : Parser Nat := do
  let start ← expect .leftParen "'('"
  let values ← repeatFrom [] fun values => do
    if ← check .rightParen then return .done values
    if (← check .ellipsis) && (← ahead 1).kind = .rightParen then
      skip
      return .done values
    let values := values ++ [← argument g]
    if ← eat .comma then return .yield values else return .done values
  discard <| expect .rightParen "')'"
  finish .arguments start.span values

/-! ### Primaries -/

/-- `$name`, `$$name` or `${expression}`; each dollar in front takes a level of `fuel`. -/
def variableWithin : Nat → Parser Nat
  | 0 => stuck
  | fuel + 1 => do
    let token ← current
    if token.kind = .variable then
      skip
      push (.variable_ token.text) token.span []
    else
      discard <| expect .dollar "variable"
      let isBraced ← eat .leftBrace
      let inner ← (if isBraced then braced g else variableWithin fuel)
      finish .variableVariable token.span [inner]

def variableExpression : Parser Nat := do variableWithin g (← remaining)

/-- A name stands for a function in front of arguments, for a type in front of a member, and
otherwise for a constant. -/
def nameExpression : Parser Nat := do
  let (written, span) ← name
  let names := (← get).names
  let kind := match (← current).kind with
    | .leftParen => .identifier written
    | .doubleColon => .classReference (names.resolve written)
    | _ => .constant written
  push kind span []

def classReference : Parser Nat := do
  let (written, span) ← name
  push (.classReference ((← get).names.resolve written)) span []

def parenthesized : Parser Nat := do
  let start := (← current).span
  let inner ← condition g
  finish .parenthesized start [inner]

def callOperands : Parser (List Nat) := do
  discard <| expect .leftParen "'('"
  let operands ← commaList .rightParen (expression g)
  discard <| expect .rightParen "')'"
  return operands

/-- An element of an array; there is no key behind an ampersand. -/
def arrayElement : Parser Nat := do
  let start := (← current).span
  discard <| eat .ellipsis
  let byRef ← eatOperator "&"
  let first ← expression g
  let isKey ← (if byRef then pure false else eat .doubleArrow)
  if isKey then
    let byRef ← eatOperator "&"
    let value ← expression g
    finish (.arrayElement byRef) start [first, value]
  else finish (.arrayElement byRef) start [first]

def arrayElements (close : TokenKind) : Parser (List Nat) :=
  repeatFrom [] fun elements => do
    if ← check close then return .done elements
    if ← eat .comma then return .yield elements
    let elements := elements ++ [← arrayElement g]
    if ← eat .comma then return .yield elements else return .done elements

def shortArray (start : Span) : Parser Nat := do
  discard <| expect .leftBracket "'['"
  let elements ← arrayElements g .rightBracket
  discard <| expect .rightBracket "']'"
  finish (.array true) start elements

def longArray (start : Span) : Parser Nat := do
  discard <| expect .leftParen "'('"
  let elements ← arrayElements g .rightParen
  discard <| expect .rightParen "')'"
  finish (.array false) start elements

def closureUses : Parser Nat := do
  let start ← advance
  discard <| expect .leftParen "'('"
  let captured ← commaList .rightParen do
    discard <| eatOperator "&"
    variableExpression g
  discard <| expect .rightParen "')'"
  finish .closureUses start.span captured

def closure (start : Span) (isStatic : Bool) : Parser Nat := do
  discard <| expect (.keyword .function_) "'function'"
  let byRef ← eatOperator "&"
  let parameters ← formalParameters g
  let captured ← onlyIf (← check (.keyword .use_)) (closureUses g)
  returnType
  let body ← block g
  finish (.closure isStatic byRef) start (parameters :: captured ++ [body])

def arrowFunction (start : Span) (isStatic : Bool) : Parser Nat := do
  skip
  let byRef ← eatOperator "&"
  let parameters ← formalParameters g
  returnType
  discard <| expect .doubleArrow "'=>'"
  let body ← g.expression assignedPower
  finish (.closure isStatic byRef) start [parameters, body]

/-- What a late-bound keyword stands for in the body of a type: `parent` has no type yet in an
interface or a trait. -/
def lateTarget (keyword : LateKeyword) : Option TypeScope → Except ScopeFault (Option String)
  | none => .error .outsideType
  | some scope =>
    match keyword with
    | .parent_ =>
      if scope.isClass then
        match scope.parent with
        | some parent => .ok (some parent)
        | none => .error (.noParent scope.name)
      else .ok none
    | _ => .ok (some scope.name)

def lateBound : Parser Nat := do
  let token ← advance
  let keyword : LateKeyword := match token.kind with
    | .keyword .self_ => .self_
    | .keyword .parent_ => .parent_
    | _ => .static_
  match lateTarget keyword (← get).scope with
  | .ok target => push (.lateBound ⟨keyword, target⟩) token.span []
  | .error reason => throw ⟨.scope keyword.word reason, token.span⟩

def literal (kind : LiteralKind) : Parser Nat := do
  let token ← advance
  push (.literal kind token.text) token.span []

def isArrowWord (t : Token) : Bool := sameAsciiCase t.text "fn"

def exitOperands : Parser (List Nat) := do
  if ← check .leftParen then callOperands g else return []

def keywordPrimary (word : Keyword) (start : Span) : Parser Nat := do
  let following ← ahead 1
  match word with
  | .namespace_ =>
    if following.kind = .backslash then nameExpression else unexpected ["expression"]
  | .static_ =>
    if following.kind = .keyword .function_ then
      skip
      closure g start true
    else if isArrowWord following then
      skip
      arrowFunction g start true
    else lateBound
  | .self_ | .parent_ => lateBound
  | .function_ => closure g start false
  | .array_ =>
    if following.kind = .leftParen then
      skip
      longArray g start
    else unexpected ["expression"]
  | .isset_ =>
    skip
    finish .isset start (← callOperands g)
  | .empty_ =>
    skip
    finish .empty start (← callOperands g)
  | .exit_ | .die_ =>
    skip
    finish .exit start (← exitOperands g)
  | _ => unexpected ["expression"]

def primary : Parser Nat := do
  let token ← current
  match token.kind with
  | .variable | .dollar => variableExpression g
  | .integer => literal .integer
  | .float => literal .float
  | .string => literal .string
  | .identifier =>
    let following ← ahead 1
    if isArrowWord token && (following.kind = .leftParen || following.isOperator "&") then
      arrowFunction g token.span false
    else nameExpression
  | .backslash => nameExpression
  | .leftBracket => shortArray g token.span
  | .leftParen => parenthesized g
  | .keyword word => keywordPrimary g word token.span
  | _ => unexpected ["expression"]

/-! ### Members, elements and calls -/

def arrayIndex (base : Nat) : Parser Nat := do
  skip
  let index ← onlyIf (!(← check .rightBracket)) (expression g)
  discard <| expect .rightBracket "']'"
  wrap .arrayIndex base index

def stringIndex (base : Nat) : Parser Nat := do
  skip
  let index ← braced g
  wrap .stringIndex base [index]

def memberWord : Parser Token := do
  if ← check .variable then advance else memberName

/-- The name of a member and whether it is only known at run time. A member named by an
expression has the empty braces for its name. -/
def memberTarget : Parser (String × Bool) := do
  if ← eat .leftBrace then
    discard <| braced g
    return ("{}", true)
  let token ← memberWord
  return (token.text, token.kind = .variable)

/-- A member with arguments is a method; a word behind a double colon is a constant. -/
def selectedMember (isStatic : Bool) : Parser Nat := do
  let start := (← current).span
  let (name, isVariable) ← memberTarget g
  if ← check .leftParen then
    let values ← arguments g
    finish (.methodMember name) start [values]
  else if isStatic && !isVariable then finish (.constantMember name) start []
  else finish (.propertyMember name) start []

def memberAccess (isStatic : Bool) (base : Nat) : Parser Nat := do
  skip
  let selected ← selectedMember g isStatic
  wrap (.memberAccess isStatic) base [selected]

def functionCall (base : Nat) : Parser Nat := do
  let values ← arguments g
  wrap .functionCall base [values]

def postfixed (kind : NodeKind) (base : Nat) : Parser Nat := do
  skip
  wrap kind base []

/-- A link of a chain behind `base`: the chain goes on behind all but an increment. -/
def chainLink (base : Nat) : Parser (ForInStep Nat) := do
  let token ← current
  match token.kind with
  | .leftBracket => return .yield (← arrayIndex g base)
  | .leftBrace =>
    if token.trivia.isEmpty && (← kindOf base).isIndexable then
      return .yield (← stringIndex g base)
    return .done base
  | .arrow => return .yield (← memberAccess g false base)
  | .doubleColon => return .yield (← memberAccess g true base)
  | .leftParen => return .yield (← functionCall g base)
  | .operator =>
    if token.text = "++" then return .done (← postfixed .postIncrement base)
    if token.text = "--" then return .done (← postfixed .postDecrement base)
    return .done base
  | _ => return .done base

def chain (base : Nat) : Parser Nat := repeatFrom base (chainLink g)

def propertyWord : Parser Nat := do
  let member ← memberWord
  push (.propertyMember member.text) member.span []

def classProperty (isStatic : Bool) (base : Nat) : Parser Nat := do
  skip
  let selected ← propertyWord
  wrap (.memberAccess isStatic) base [selected]

/-- A link in the name of the class of a new object, which ends in front of its arguments. -/
def classLink (base : Nat) : Parser (ForInStep Nat) := do
  let token ← current
  if token.kind = .leftBracket then return .yield (← arrayIndex g base)
  if token.kind = .arrow then return .yield (← classProperty false base)
  if token.kind = .doubleColon && (← ahead 1).kind = .variable then
    return .yield (← classProperty true base)
  return .done base

def dynamicClass : Parser Nat := do
  repeatFrom (← variableExpression g) (classLink g)

/-! ### Operators -/

def newTarget : Parser Nat := do
  match (← current).kind with
  | .identifier | .backslash | .keyword .namespace_ => classReference
  | .variable | .dollar => dynamicClass g
  | .leftParen => parenthesized g
  | .keyword word => if word.isLateBound then lateBound else unexpected ["class name"]
  | _ => unexpected ["class name"]

def allocation : Parser Nat := do
  let start ← advance
  let target ← newTarget g
  let values ← onlyIf (← check .leftParen) (arguments g)
  finish .allocation start.span (target :: values)

def assignment (target : Nat) : Parser Nat := do
  let token ← advance
  let byRef ← (if token.text = "=" then eatOperator "&" else pure false)
  let value ← g.expression assignedPower
  wrap (.assignment (if byRef then "=&" else token.text)) target [value]

def assignable : Parser Nat := do
  let target ← chain g (← primary g)
  let token ← current
  if token.kind = .operator && assignmentOperators.contains token.text &&
      (← kindOf target).isAssignable then
    assignment g target
  else return target

def prefixed (kind : NodeKind) (power : Nat) : Parser Nat := do
  let start ← advance
  let operand ← g.expression power
  finish kind start.span [operand]

def unary : Parser Nat := do
  let token ← current
  match token.kind with
  | .operator =>
    match unaryKind? token.text with
    | some (kind, power) => prefixed g kind power
    | none => unexpected ["expression"]
  | .cast => prefixed g (.cast (castTarget token.text)) unaryOperandPower
  | .keyword .new_ => chain g (← allocation g)
  | .keyword .clone_ => prefixed g .clone unaryOperandPower
  | .keyword .print_ => prefixed g .print assignedPower
  | .keyword .include_ => prefixed g (.inclusion .include_) assignedPower
  | .keyword .includeOnce_ => prefixed g (.inclusion .includeOnce) assignedPower
  | .keyword .require_ => prefixed g (.inclusion .require) assignedPower
  | .keyword .requireOnce_ => prefixed g (.inclusion .requireOnce) assignedPower
  | _ => assignable g

def testedType (power : Nat) : Parser Nat := do
  match (← current).kind with
  | .identifier | .backslash => classReference
  | .keyword word => if word.isLateBound then lateBound else g.expression power
  | _ => g.expression power

def middle : Parser (List Nat) := do
  if ← eat .colon then return []
  let middle ← expression g
  discard <| expect .colon "':'"
  return [middle]

def ternary (left : Nat) : Parser Nat := do
  skip
  let middle ← middle g
  let right ← g.expression ternaryPower.right
  wrap .conditional left (middle ++ [right])

def rightOperand (op : String) (power : Nat) : Parser Nat :=
  if op = "instanceof" then testedType g power else g.expression power

def joined (op : String) (power left : Nat) : Parser Nat := do
  skip
  let right ← rightOperand g op power
  wrap (binaryKind op) left [right]

/-- One operator behind the operand `left`, unless it binds less than `least`. -/
def operation (least : Nat) (left : Nat) : Parser (ForInStep Nat) := do
  let token ← current
  if token.kind = .question then
    if ternaryPower.left < least then return .done left
    return .yield (← ternary g left)
  match token.operator?.bind fun op => (bindingPower? op).map (op, ·) with
  | none => return .done left
  | some (op, power) =>
    if power.left < least then return .done left
    return .yield (← joined g op power.right left)

def binary (least : Nat) : Parser Nat := do
  repeatFrom (← unary g) (operation g least)

end Parser

end PhpAnalyser
