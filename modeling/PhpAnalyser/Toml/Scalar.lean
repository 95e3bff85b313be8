import PhpAnalyser.Toml.Reader
/-!
TOML numbers and truth values.
-/
namespace PhpAnalyser

namespace Toml

namespace Reader

def digits (isDigit : Char → Bool) : Reader (List Char) := do
  let first ← satisfy isDigit
  let rest ← ofStep (run isDigit)
  return first :: rest
where
  run (isDigit : Char → Bool) : List Char → Option (List Char × List Char)
    | '_' :: c :: rest =>
      if isDigit c then (run isDigit rest).map fun (ds, rest) => (c :: ds, rest) else none
    | c :: rest =>
      if isDigit c then (run isDigit rest).map fun (ds, rest) => (c :: ds, rest)
      else some ([], c :: rest)
    | [] => some ([], [])

def sign : Reader Bool := do
  if ← eat '-' then return true
  optional (char '+')
  return false

/-- The digits of a decimal number, which starts with a zero only if it is zero. -/
def decimalDigits : Reader (List Char) :=
  (do char '0'; return ['0']) <|> digits Char.isDigit

def numberOf (base : Nat) (digits : List Char) : Nat :=
  digits.foldl (fun n c => base * n + (hexValue? c).getD 0) 0

def wholeLimit : Nat := 0x8000000000000000

def based (mark : String) (base : Nat) : Reader Unit := do
  word mark
  let ds ← digits fun c => (hexValue? c).any (· < base)
  guard (numberOf base ds < wholeLimit)

/-- Whole numbers have 64 bits. -/
def integer : Reader Unit :=
  based "0x" 16 <|> based "0o" 8 <|> based "0b" 2 <|> do
    let negative ← sign
    let n := numberOf 10 (← decimalDigits)
    guard (n < wholeLimit ∨ (negative ∧ n = wholeLimit))

def exponent : Reader Int := do
  let _ ← satisfy fun c => c = 'e' || c = 'E'
  let negative ← sign
  let n := numberOf 10 (← digits Char.isDigit)
  return if negative then -n else n

def fraction : Reader (List Char) := do
  char '.'
  digits Char.isDigit

/-- The least number that rounds to more than 64 bits can hold as a float. -/
def floatLimit : Nat := Nat.pow 2 1024 - Nat.pow 2 970

/-- Whether the digits, as a whole number times a power of ten, reach the limit. Their count
decides without a power unless the number is close to the limit, which has 309 digits. -/
def isTooLarge (digits : List Char) (exponent : Int) : Bool :=
  let places := (digits.dropWhile (· = '0')).length + exponent
  let n := numberOf 10 digits
  if n = 0 ∨ places < 309 then false
  else if 309 < places then true
  else floatLimit * Nat.pow 10 (-exponent).toNat ≤ n * Nat.pow 10 exponent.toNat

/-- A float that is too large must be negative, and stands for infinity then. -/
def float : Reader Unit := do
  let negative ← sign
  (word "inf" <|> word "nan" <|> do
    let whole ← decimalDigits
    let (part, power) ← (do return ([], ← exponent)) <|> (do
      let part ← fraction
      return (part, ← exponent <|> return 0))
    guard (negative ∨ !isTooLarge (whole ++ part) (power - part.length)))

def truthValue : Reader Unit := word "true" <|> word "false"

end Reader

end Toml

end PhpAnalyser
