import PhpAnalyser.Lexeme.Token
import PhpAnalyser.Syntax.Node
/-!
How tightly operators bind. An operator takes the operand on its left when its left power is not
below the least power asked for, and reads the operand on its right with its right power.
-/
namespace PhpAnalyser

structure BindingPower where
  left : Nat
  right : Nat
  deriving DecidableEq, Repr

def BindingPower.leftward (level : Nat) : BindingPower := ⟨level, level + 1⟩

def BindingPower.rightward (level : Nat) : BindingPower := ⟨level + 1, level⟩

def ternaryPower : BindingPower := .leftward 50

/-- The operand of a negation includes a type test. -/
def notOperandPower : Nat := 170

/-- The operand of a sign or a cast includes only a power. -/
def unaryOperandPower : Nat := 175

/-- The value of an assignment includes all but the operators that are words. -/
def assignedPower : Nat := 40

def bindingPower? (op : String) : Option BindingPower :=
  if op = "or" then some (.leftward 10)
  else if op = "xor" then some (.leftward 20)
  else if op = "and" then some (.leftward 30)
  else if op = "??" then some (.rightward 60)
  else if op = "||" then some (.leftward 70)
  else if op = "&&" then some (.leftward 80)
  else if op = "|" then some (.leftward 90)
  else if op = "^" then some (.leftward 100)
  else if op = "&" then some (.leftward 110)
  else if ["==", "!=", "===", "!==", "<>", "<=>"].contains op then some (.leftward 120)
  else if ["<", "<=", ">", ">="].contains op then some (.leftward 130)
  else if ["<<", ">>"].contains op then some (.leftward 140)
  else if ["+", "-", "."].contains op then some (.leftward 150)
  else if ["*", "/", "%"].contains op then some (.leftward 160)
  else if op = "instanceof" then some (.leftward 170)
  else if op = "**" then some (.rightward 180)
  else none

def Token.operator? (t : Token) : Option String :=
  match t.kind with
  | .operator => some t.text
  | .keyword word => if word.isOperator then some (asciiLower t.text) else none
  | _ => none

def binaryKind (op : String) : NodeKind :=
  if op = "or" then .logicalOr
  else if op = "and" then .logicalAnd
  else if op = "xor" then .logicalXor
  else if op = "||" then .booleanOr
  else if op = "&&" then .booleanAnd
  else if op = "instanceof" then .instanceOf
  else .binary op

def unaryKind? (op : String) : Option (NodeKind × Nat) :=
  if op = "!" then some (.unary op, notOperandPower)
  else if ["-", "+", "~", "@"].contains op then some (.unary op, unaryOperandPower)
  else if op = "++" then some (.preIncrement, unaryOperandPower)
  else if op = "--" then some (.preDecrement, unaryOperandPower)
  else none

def assignmentOperators : List String :=
  ["=", "+=", "-=", "*=", "/=", ".=", "%=", "&=", "|=", "^=", "<<=", ">>=", "**=", "??="]

def castTarget (text : String) : String :=
  let outer (c : Char) : Bool := c == '(' || c == ')' || isBlank c
  asciiLower (String.ofList (((text.toList.dropWhile outer).reverse.dropWhile outer).reverse))

end PhpAnalyser
