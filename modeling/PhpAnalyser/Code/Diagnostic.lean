import PhpAnalyser.Syntax.Fault
/-!
What a run has to say about its files.
-/
namespace PhpAnalyser

inductive DiagnosticKind where
  | lex
  | unexpectedToken
  | tokenStreamEnd
  | scope
  | nestingTooDeep
  | methodCollision
  | duplicateSymbol
  deriving DecidableEq, Repr

inductive Severity where
  | error
  | warning
  deriving DecidableEq, Repr

structure Diagnostic where
  kind : DiagnosticKind
  severity : Severity
  message : String
  file : Nat
  span : Span
  deriving DecidableEq, Repr

def ParseFault.diagnosticKind : ParseFault → DiagnosticKind
  | lex _ => .lex
  | unexpectedToken .. => .unexpectedToken
  | tokenStreamEnd _ => .tokenStreamEnd
  | scope .. => .scope
  | nestingTooDeep _ => .nestingTooDeep

namespace Diagnostic

def isError (d : Diagnostic) : Bool := d.severity = .error

def label (d : Diagnostic) : String := if d.isError then "error here" else "warning here"

/-- Whatever is wrong with a file makes it fail. -/
def ofParseError (file : Nat) (e : ParseError) : Diagnostic :=
  ⟨e.fault.diagnosticKind, .error, e.fault.message, file, e.span⟩

def duplicate (what name : String) (file : Nat) (span : Span) : Diagnostic :=
  ⟨.duplicateSymbol, .warning,
    what ++ " " ++ name ++ " is already declared; keeping the first declaration.", file, span⟩

def collision (method typeName : String) (file : Nat) (span : Span) : Diagnostic :=
  ⟨.methodCollision, .error,
    "Trait method " ++ method ++
      " has not been applied, because there are collisions with other trait methods on " ++
      typeName ++ ".", file, span⟩

end Diagnostic

end PhpAnalyser
