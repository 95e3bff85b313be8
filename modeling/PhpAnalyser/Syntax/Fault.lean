import PhpAnalyser.Text.Utf8
/-!
What can be wrong with a source text, and how it is said.
-/
namespace PhpAnalyser

inductive ScopeFault where
  | outsideType
  | noParent (className : String)
  deriving DecidableEq, Repr

inductive ParseFault where
  | lex (fault : LexFault)
  | unexpectedToken (expected : List String) (found : String)
  | tokenStreamEnd (expected : List String)
  | scope (keyword : String) (reason : ScopeFault)
  | nestingTooDeep (limit : Nat)
  deriving DecidableEq, Repr

def showExpected : List String → String
  | [] => "nothing"
  | [only] => only
  | items => "one of " ++ ", ".intercalate items

namespace ParseFault

def message : ParseFault → String
  | lex fault => fault.message
  | unexpectedToken expected found =>
    "Unexpected token: " ++ found ++ ", expected " ++ showExpected expected
  | tokenStreamEnd expected => "Unexpected end of token stream, expected " ++ showExpected expected
  | scope keyword .outsideType =>
    "The keyword \"" ++ keyword ++ "\" was used outside of a class/method scope."
  | scope keyword (.noParent className) =>
    "The keyword \"" ++ keyword ++ "\" was used but the class \"" ++ className ++
      "\" does not declare a parent."
  | nestingTooDeep limit => "Nesting depth exceeds the maximum of " ++ toString limit

/-- Reading goes on only behind a token that the grammar does not allow. -/
def isRecoverable : ParseFault → Bool
  | unexpectedToken .. => true
  | _ => false

end ParseFault

structure ParseError where
  fault : ParseFault
  span : Span
  deriving DecidableEq, Repr

def LexError.toParseError (e : LexError) : ParseError := ⟨.lex e.fault, e.span⟩

end PhpAnalyser
