import PhpAnalyser.Source.Span
/-!
The kinds of syntax nodes. Declared names, and the names of types wherever they are used, are
qualified: segments joined by single backslashes, without one in front.
-/
namespace PhpAnalyser

inductive Visibility where
  | public_
  | protected_
  | private_
  deriving DecidableEq, Repr

structure Modifiers where
  visibility : Option Visibility
  isStatic : Bool
  isAbstract : Bool
  isFinal : Bool
  deriving DecidableEq, Repr

def Modifiers.none : Modifiers := ⟨.none, false, false, false⟩

/-- What is declared without a visibility is public. -/
def Modifiers.effective (m : Modifiers) : Visibility := m.visibility.getD .public_

inductive LiteralKind where
  | integer
  | float
  | string
  deriving DecidableEq, Repr

inductive InclusionKind where
  | include_
  | includeOnce
  | require
  | requireOnce
  deriving DecidableEq, Repr

inductive Adaptation where
  | precedence (excluded : List String)
  | rename (visibility : Option Visibility) (newName : Option String)
  deriving DecidableEq, Repr

inductive LateKeyword where
  | self_
  | parent_
  | static_
  deriving DecidableEq, Repr

def LateKeyword.word : LateKeyword → String
  | self_ => "self"
  | parent_ => "parent"
  | static_ => "static"

/-- A reference through a keyword, with the type that the surrounding text gives it. -/
structure LateBound where
  keyword : LateKeyword
  target : Option String
  deriving DecidableEq, Repr

inductive NodeKind where
  | compilationUnit
  | namespace_ (name : String)
  | useImport (name shortName : String)
  | class_ (name : String) (modifiers : Modifiers) (parent : Option String)
      (interfaces : List String)
  | interface_ (name : String) (parents : List String)
  | trait_ (name : String)
  | function_ (name : String) (byRef : Bool)
  | method (name : String) (modifiers : Modifiers) (byRef : Bool)
  | propertyDeclaration (modifiers : Modifiers)
  | property (name : String)
  | constantDeclaration
  | constantDeclarator (name : String)
  | formalParameters
  | formalParameter (name : String) (typeHint : Option String) (byRef variadic : Bool)
  | traitUse (traits : List String)
  | traitAdaptation (traitName : Option String) (method : String) (action : Adaptation)
  | scope
  | expressionStatement
  | echo
  | if_
  | elseIf
  | else_
  | while_
  | doWhile
  | for_
  | forInit
  | forCondition
  | forUpdate
  | foreach (byRef : Bool)
  | switch
  | switchLabel (isDefault : Bool)
  | break_
  | continue_
  | return_
  | try_
  | catch_ (types : List String) (bound : String)
  | finally_
  | throw_
  | global
  | staticVariables
  | unset
  | assignment (op : String)
  | conditional
  | logicalOr
  | logicalAnd
  | logicalXor
  | booleanOr
  | booleanAnd
  | binary (op : String)
  | unary (op : String)
  | preIncrement
  | preDecrement
  | postIncrement
  | postDecrement
  | cast (target : String)
  | instanceOf
  | allocation
  | clone
  | parenthesized
  | variable_ (name : String)
  | variableVariable
  | literal (kind : LiteralKind) (image : String)
  | identifier (name : String)
  | constant (name : String)
  | classReference (name : String)
  | lateBound (reference : LateBound)
  | memberAccess (isStatic : Bool)
  | propertyMember (name : String)
  | methodMember (name : String)
  | constantMember (name : String)
  | functionCall
  | arguments
  | arrayIndex
  | stringIndex
  | array (short : Bool)
  | arrayElement (byRef : Bool)
  | closure (isStatic byRef : Bool)
  | closureUses
  | isset
  | empty
  | exit
  | print
  | inclusion (kind : InclusionKind)
  deriving DecidableEq, Repr

namespace NodeKind

def label : NodeKind → String
  | compilationUnit => "CompilationUnit"
  | namespace_ .. => "Namespace"
  | useImport .. => "UseImport"
  | class_ .. => "Class"
  | interface_ .. => "Interface"
  | trait_ .. => "Trait"
  | function_ .. => "Function"
  | method .. => "Method"
  | propertyDeclaration .. => "PropertyDeclaration"
  | property .. => "Property"
  | constantDeclaration => "ConstantDeclaration"
  | constantDeclarator .. => "ConstantDeclarator"
  | formalParameters => "FormalParameters"
  | formalParameter .. => "FormalParameter"
  | traitUse .. => "TraitUse"
  | traitAdaptation .. => "TraitAdaptation"
  | scope => "Scope"
  | expressionStatement => "ExpressionStatement"
  | echo => "Echo"
  | if_ => "If"
  | elseIf => "ElseIf"
  | else_ => "Else"
  | while_ => "While"
  | doWhile => "DoWhile"
  | for_ => "For"
  | forInit => "ForInit"
  | forCondition => "ForCondition"
  | forUpdate => "ForUpdate"
  | foreach .. => "Foreach"
  | switch => "Switch"
  | switchLabel .. => "SwitchLabel"
  | break_ => "Break"
  | continue_ => "Continue"
  | return_ => "Return"
  | try_ => "Try"
  | catch_ .. => "Catch"
  | finally_ => "Finally"
  | throw_ => "Throw"
  | global => "Global"
  | staticVariables => "StaticVariables"
  | unset => "Unset"
  | assignment .. => "Assignment"
  | conditional => "Conditional"
  | logicalOr => "LogicalOr"
  | logicalAnd => "LogicalAnd"
  | logicalXor => "LogicalXor"
  | booleanOr => "BooleanOr"
  | booleanAnd => "BooleanAnd"
  | binary .. => "Binary"
  | unary .. => "Unary"
  | preIncrement => "PreIncrement"
  | preDecrement => "PreDecrement"
  | postIncrement => "PostIncrement"
  | postDecrement => "PostDecrement"
  | cast .. => "Cast"
  | instanceOf => "Instanceof"
  | allocation => "Allocation"
  | clone => "Clone"
  | parenthesized => "Parenthesized"
  | variable_ .. => "Variable"
  | variableVariable => "VariableVariable"
  | literal .. => "Literal"
  | identifier .. => "Identifier"
  | constant .. => "Constant"
  | classReference .. => "ClassReference"
  | lateBound .. => "LateBound"
  | memberAccess .. => "MemberPrimaryPrefix"
  | propertyMember .. => "PropertyPostfix"
  | methodMember .. => "MethodPostfix"
  | constantMember .. => "ConstantPostfix"
  | functionCall => "FunctionPostfix"
  | arguments => "Arguments"
  | arrayIndex => "ArrayIndex"
  | stringIndex => "StringIndex"
  | array .. => "Array"
  | arrayElement .. => "ArrayElement"
  | closure .. => "Closure"
  | closureUses => "ClosureUses"
  | isset => "Isset"
  | empty => "Empty"
  | exit => "Exit"
  | print => "Print"
  | inclusion .. => "Include"

def isTypeDeclaration : NodeKind → Bool
  | class_ .. | interface_ .. | trait_ .. => true
  | _ => false

def isAssignable : NodeKind → Bool
  | variable_ .. | variableVariable | arrayIndex | stringIndex | memberAccess .. | array ..
  | functionCall => true
  | _ => false

/-- What may be followed by an offset in braces. -/
def isIndexable : NodeKind → Bool
  | variable_ .. | arrayIndex | stringIndex | memberAccess .. => true
  | _ => false

end NodeKind

/-- A number of `units` with the point before the last `places` digits. -/
structure Decimal where
  units : Int
  places : Nat
  deriving DecidableEq, Repr

inductive MetaValue where
  | bool (value : Bool)
  | int (value : Int)
  | float (value : Decimal)
  | text (value : String)
  deriving DecidableEq, Repr

end PhpAnalyser
