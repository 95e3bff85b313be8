/-!
The Unicode property White_Space, the character classes of names, comparison in ASCII case,
qualified names, which are segments joined by backslashes, and text in columns.
-/
namespace PhpAnalyser

def isBlank (c : Char) : Bool :=
  let n := c.toNat
  (9 ≤ n && n ≤ 13) || n == 0x20 || n == 0x85 || n == 0xA0 || n == 0x1680 ||
    (0x2000 ≤ n && n ≤ 0x200A) || n == 0x2028 || n == 0x2029 || n == 0x202F || n == 0x205F ||
    n == 0x3000

def isAscii (c : Char) : Bool := c.toNat < 128

/-- A name starts with an ASCII letter, an underscore or any character beyond ASCII. -/
def startsName (c : Char) : Bool := c.isAlpha || c == '_' || !isAscii c

def continuesName (c : Char) : Bool := startsName c || c.isDigit

/-- ASCII letters only: other characters have no other case here. -/
def asciiLower (s : String) : String := String.ofList (s.toList.map Char.toLower)

def sameAsciiCase (a b : String) : Bool := asciiLower a == asciiLower b

def startsWith (text : List Char) (start : String) : Bool := start.toList.isPrefixOf text

def isBackslash (c : Char) : Bool := c == '\\'

def splitName : List Char → List Char × Option (List Char)
  | [] => ([], none)
  | '\\' :: rest => ([], some rest)
  | c :: rest => let (first, behind) := splitName rest; (c :: first, behind)

def lastSegment (name : String) : String :=
  String.ofList ((name.toList.reverse.takeWhile fun c => !isBackslash c).reverse)

def dropLeadingBackslashes (name : String) : String :=
  String.ofList (name.toList.dropWhile isBackslash)

def joinName (qualifier name : String) : String := qualifier ++ "\\" ++ name

def padRight (width : Nat) (s : String) : String :=
  s ++ String.ofList (List.replicate (width - s.length) ' ')

end PhpAnalyser
