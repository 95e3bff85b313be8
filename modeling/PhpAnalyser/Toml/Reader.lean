import PhpAnalyser.Toml.Text
/-!
Readers of TOML text: what is left of the text goes in and out, and a failed reader takes nothing.
-/
namespace PhpAnalyser

namespace Toml

abbrev Reader := StateT (List Char) Option

namespace Reader

def ofStep (step : List Char → Option (α × List Char)) : Reader α := step

def rest : Reader (List Char) := get

def satisfy (p : Char → Bool) : Reader Char := ofStep fun s =>
  match s with
  | [] => none
  | c :: rest => if p c then some (c, rest) else none

def takeWhile (p : Char → Bool) : Reader (List Char) :=
  ofStep fun s => some (s.takeWhile p, s.dropWhile p)

def char (c : Char) : Reader Unit := do let _ ← satisfy (· = c)

def word (text : String) : Reader Unit :=
  ofStep fun s => if text.toList.isPrefixOf s then some ((), s.drop text.length) else none

def eat (c : Char) : Reader Bool := (do char c; return true) <|> return false

def optional (r : Reader Unit) : Reader Unit := r <|> return ()

def blanks : Reader Unit := modify skipBlanks

def newline : Reader Unit := ofStep fun s => (afterNewline? s).map ((), ·)

def lineEnd : Reader Unit := newline <|> do guard (← rest).isEmpty

def comment : Reader Unit := do
  char '#'
  let _ ← takeWhile isTextChar

def lineRest : Reader Unit := do
  blanks
  optional comment
  lineEnd

/-- Blanks, comments and line ends, at most `fuel` times each. -/
def gap : Nat → Reader Unit
  | 0 => return ()
  | fuel + 1 => do
    blanks
    optional do
      optional comment
      newline
      gap fuel

end Reader

end Toml

end PhpAnalyser
