import PhpAnalyser.Lexeme.Keyword
import PhpAnalyser.Source.Span
/-!
Tokens, the trivia in front of them, and the faults of a text that has none.
-/
namespace PhpAnalyser

inductive LexFault where
  | unexpectedCharacter (c : Char)
  | unterminatedString
  | unterminatedComment
  | unterminatedHeredoc (label : String)
  | invalidUtf8
  deriving DecidableEq, Repr

def LexFault.message : LexFault → String
  | unexpectedCharacter c => "unexpected character '" ++ c.toString ++ "'"
  | unterminatedString => "unterminated string literal"
  | unterminatedComment => "unterminated block comment"
  | unterminatedHeredoc label =>
    "unterminated heredoc, missing closing identifier '" ++ label ++ "'"
  | invalidUtf8 => "invalid UTF-8 byte sequence"

inductive TriviaKind where
  | whitespace
  | lineComment
  | blockComment
  | docComment
  | inlineHtml
  | openTag
  deriving DecidableEq, Repr

def TriviaKind.isComment : TriviaKind → Bool
  | lineComment | blockComment | docComment => true
  | _ => false

structure Trivia where
  kind : TriviaKind
  text : String
  deriving DecidableEq, Repr

inductive TokenKind where
  | identifier
  | variable
  | integer
  | float
  | string
  | keyword (word : Keyword)
  | cast
  | operator
  | semicolon
  | comma
  | leftParen
  | rightParen
  | leftBrace
  | rightBrace
  | leftBracket
  | rightBracket
  | colon
  | doubleColon
  | arrow
  | doubleArrow
  | question
  | backslash
  | dollar
  | ellipsis
  | closeTag
  | eof
  | error (fault : LexFault)
  deriving DecidableEq, Repr

def TokenKind.keyword? : TokenKind → Option Keyword
  | keyword word => some word
  | _ => none

def TokenKind.isStatementEnd : TokenKind → Bool
  | semicolon | closeTag => true
  | _ => false

structure Token where
  kind : TokenKind
  text : String
  span : Span
  trivia : List Trivia
  deriving DecidableEq, Repr

namespace Token

def docComment (t : Token) : Option String :=
  (t.trivia.reverse.find? (·.kind = .docComment)).map (·.text)

def isOperator (t : Token) (op : String) : Bool := t.kind = .operator && t.text == op

def shown (t : Token) : String := if t.kind = .eof then "end of file" else t.text

end Token

end PhpAnalyser
