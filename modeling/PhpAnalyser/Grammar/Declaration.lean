import PhpAnalyser.Grammar.Expression
/-!
The productions of types, their members, functions and constants.
-/
namespace PhpAnalyser

namespace Parser

variable (g : Nested)

def declaredName (expected : String) : Parser String := do
  let token ← expect .identifier expected
  return (← get).names.qualify token.text

/-! ### Members -/

def addModifier? (m : Modifiers) : Keyword → Option Modifiers
  | .public_ | .var_ => some { m with visibility := some .public_ }
  | .protected_ => some { m with visibility := some .protected_ }
  | .private_ => some { m with visibility := some .private_ }
  | .static_ => some { m with isStatic := true }
  | .abstract_ => some { m with isAbstract := true }
  | .final_ => some { m with isFinal := true }
  | _ => none

def memberModifiers : Parser Modifiers :=
  repeatFrom Modifiers.none fun modifiers => do
    match (← current).kind.keyword?.bind (addModifier? modifiers) with
    | some modifiers =>
      skip
      return .yield modifiers
    | none => return .done modifiers

def startsProperty : TokenKind → Bool
  | .variable | .identifier | .question | .backslash | .keyword .array_ | .keyword .self_
  | .keyword .static_ => true
  | _ => false

/-- A method without a body ends in a semicolon. -/
def method (start : Span) (modifiers : Modifiers) : Parser Nat := do
  skip
  let byRef ← eatOperator "&"
  let token ← memberName
  let parameters ← formalParameters g
  returnType
  let body ← onlyIf (!(← eat .semicolon)) (block g)
  finish (.method token.text modifiers byRef) start (parameters :: body)

def property : Parser Nat := do
  let token ← expect .variable "variable"
  let value ← onlyIf (← eatOperator "=") (expression g)
  finish (.property token.text) token.span value

def propertyHint : Parser Unit := do
  if ← check .variable then return
  discard typeHint

def propertyDeclaration (start : Span) (modifiers : Modifiers) : Parser Nat := do
  propertyHint
  let properties ← commaSeparated (property g)
  pushStatement (.propertyDeclaration modifiers) start properties

def constantDeclarator : Parser Nat := do
  let token ← memberName
  expectOperator "=" "'='"
  let value ← expression g
  finish (.constantDeclarator token.text) token.span [value]

def constantDeclaration : Parser Nat := do
  let start ← advance
  let declarators ← commaSeparated (constantDeclarator g)
  pushStatement .constantDeclaration start.span declarators

/-! ### Traits in use -/

def visibilityWord : TokenKind → Option Visibility
  | .keyword .public_ => some .public_
  | .keyword .protected_ => some .protected_
  | .keyword .private_ => some .private_
  | _ => none

def ruleMethod : Parser (Option String × String) := do
  if (← ahead 1).kind = .doubleColon || (← check .backslash) then
    let traitName ← className
    discard <| expect .doubleColon "'::'"
    let token ← memberName
    return (some traitName, token.text)
  let token ← memberName
  return (none, token.text)

def ruleVisibility : Parser (Option Visibility) := do
  match visibilityWord (← current).kind with
  | some visibility =>
    skip
    return some visibility
  | none => return none

def ruleAlias : Parser (Option String) := do
  if (← current).kind.isStatementEnd then return none
  return some (← memberName).text

def renameRule : Parser Adaptation := do
  let visibility ← ruleVisibility
  let newName ← ruleAlias
  if visibility.isNone && newName.isNone then unexpected ["visibility", "alias name"]
  else return .rename visibility newName

def ruleAction : Parser Adaptation := do
  if ← eat (.keyword .insteadof_) then return .precedence (← classNames)
  if ← eat (.keyword .as_) then return ← renameRule
  unexpected ["'insteadof'", "'as'"]

def traitAdaptation : Parser Nat := do
  let start := (← current).span
  let (traitName, method) ← ruleMethod
  let action ← ruleAction
  pushStatement (.traitAdaptation traitName method action) start []

def traitRules (start : Span) : Parser (List Nat) := do
  if ← eat .leftBrace then
    repeatFrom [] fun rules => do
      if ← eat .rightBrace then return .done rules
      return .yield (rules ++ [← traitAdaptation])
  else
    discard <| finishStatement start
    return []

def traitUse : Parser Nat := do
  let start ← advance
  let traits ← classNames
  let rules ← traitRules start.span
  finish (.traitUse traits) start.span rules

/-! ### Types -/

def modified (stateful : Bool) (start : Span) (modifiers : Modifiers) : Parser Nat := do
  let token ← current
  if token.kind = .keyword .const_ then constantDeclaration g
  else if token.kind = .keyword .function_ then method g start modifiers
  else if stateful && startsProperty token.kind then propertyDeclaration g start modifiers
  else unexpected ["'function'", "'const'", "property"]

/-- A member of a type, which may hold state unless the type is an interface. -/
def member (stateful : Bool) : Parser Nat := do
  if stateful && (← check (.keyword .use_)) then return ← traitUse
  let start ← current
  let modifiers ← memberModifiers
  let id ← modified g stateful start.span modifiers
  setDocComment id start.docComment
  return id

def members (stateful : Bool) : Parser (List Nat) := do
  discard <| expect .leftBrace "'\x7b'"
  let ids ← recovering (fun t => t.kind = .rightBrace) do return [← member g stateful]
  discard <| expect .rightBrace "'\x7d'"
  return ids

def declare (kind : NodeKind) (start : Token) (children : List Nat) : Parser Nat := do
  let id ← finish kind start.span children
  setDocComment id start.docComment
  return id

def classModifiers : Parser Modifiers :=
  repeatFrom Modifiers.none fun modifiers => do
    if ← eat (.keyword .abstract_) then return .yield { modifiers with isAbstract := true }
    if ← eat (.keyword .final_) then return .yield { modifiers with isFinal := true }
    return .done modifiers

def parentClass : Parser (Option String) := do
  if ← eat (.keyword .extends_) then some <$> className else return none

def typesBehind (word : Keyword) : Parser (List String) := do
  if ← eat (.keyword word) then classNames else return []

def classDeclaration : Parser Nat := do
  let start ← current
  let modifiers ← classModifiers
  discard <| expect (.keyword .class_) "'class'"
  let name ← declaredName "identifier"
  let parent ← parentClass
  let interfaces ← typesBehind .implements_
  let body ← withScope (some ⟨name, true, parent⟩) (members g true)
  declare (.class_ name modifiers parent interfaces) start body

def interfaceDeclaration : Parser Nat := do
  let start ← advance
  let name ← declaredName "identifier"
  let parents ← typesBehind .extends_
  let body ← withScope (some ⟨name, false, none⟩) (members g false)
  declare (.interface_ name parents) start body

def traitDeclaration : Parser Nat := do
  let start ← advance
  let name ← declaredName "identifier"
  let body ← withScope (some ⟨name, false, none⟩) (members g true)
  declare (.trait_ name) start body

/-! ### Functions -/

def functionBody : Parser (List Nat) := do
  let parameters ← formalParameters g
  returnType
  let body ← block g
  return [parameters, body]

/-- A function belongs to no type, even in the body of a method. -/
def functionDeclaration : Parser Nat := do
  let start ← advance
  let byRef ← eatOperator "&"
  let name ← declaredName "function name"
  let body ← withScope none (functionBody g)
  declare (.function_ name byRef) start body

end Parser

end PhpAnalyser
