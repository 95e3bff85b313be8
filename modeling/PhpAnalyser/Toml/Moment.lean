import PhpAnalyser.Toml.Scalar
/-!
TOML dates and times: a date, a time of day, or both with or without an offset from universal time.
-/
namespace PhpAnalyser

namespace Toml

structure Date where
  year : Nat
  month : Nat
  day : Nat
  deriving DecidableEq, Repr

/-- The second 60 is a leap second. -/
structure Time where
  hour : Nat
  minute : Nat
  second : Nat
  nanosecond : Nat
  deriving DecidableEq, Repr

inductive Offset where
  | universal
  | minutes (n : Int)
  deriving DecidableEq, Repr

inductive Moment where
  | time (time : Time)
  | date (date : Date) (time : Option (Time × Option Offset))
  deriving DecidableEq, Repr

def padded (width n : Nat) : List Char :=
  let ds := Nat.toDigits 10 n
  List.replicate (width - ds.length) '0' ++ ds

namespace Date

def text (d : Date) : List Char :=
  padded 4 d.year ++ '-' :: padded 2 d.month ++ '-' :: padded 2 d.day

end Date

namespace Time

def fraction (t : Time) : List Char :=
  if t.nanosecond = 0 then []
  else '.' :: ((padded 9 t.nanosecond).reverse.dropWhile (· = '0')).reverse

def text (t : Time) : List Char :=
  padded 2 t.hour ++ ':' :: padded 2 t.minute ++ ':' :: padded 2 t.second ++ t.fraction

end Time

namespace Offset

def text : Offset → List Char
  | universal => ['Z']
  | minutes n =>
    (if n < 0 then '-' else '+') ::
      padded 2 (n.natAbs / 60) ++ ':' :: padded 2 (n.natAbs % 60)

end Offset

/-- The one text of a moment, however it was written. -/
def Moment.text : Moment → String
  | time t => String.ofList t.text
  | date d none => String.ofList d.text
  | date d (some (t, offset)) =>
    String.ofList (d.text ++ 'T' :: t.text ++ offset.elim [] (·.text))

def isLeapYear (year : Nat) : Bool := year % 4 = 0 && (year % 100 ≠ 0 || year % 400 = 0)

def daysIn (year month : Nat) : Nat :=
  if month = 2 then (if isLeapYear year then 29 else 28)
  else if month = 4 ∨ month = 6 ∨ month = 9 ∨ month = 11 then 30
  else 31

namespace Reader

def fixed (width low high : Nat) : Reader Nat := do
  let ds ← ofStep fun s => some (s.take width, s.drop width)
  guard (ds.length = width ∧ ds.all Char.isDigit)
  let n := numberOf 10 ds
  guard (low ≤ n ∧ n ≤ high)
  return n

def date : Reader Date := do
  let year ← fixed 4 0 9999
  char '-'
  let month ← fixed 2 1 12
  char '-'
  return ⟨year, month, ← fixed 2 1 (daysIn year month)⟩

/-- The fraction of a second; what is less than a nanosecond is dropped. -/
def nanosecond : Reader Nat := do
  char '.'
  let first ← satisfy Char.isDigit
  let ds := (first :: (← takeWhile Char.isDigit)).take 9
  return numberOf 10 (ds ++ List.replicate (9 - ds.length) '0')

def time : Reader Time := do
  let hour ← fixed 2 0 23
  char ':'
  let minute ← fixed 2 0 59
  char ':'
  return ⟨hour, minute, ← fixed 2 0 60, ← nanosecond <|> return 0⟩

def offset : Reader Offset := do
  let c ← satisfy fun c => c = 'Z' || c = 'z' || c = '+' || c = '-'
  if c = 'Z' ∨ c = 'z' then return .universal
  let hours ← fixed 2 0 23
  char ':'
  let n := 60 * hours + (← fixed 2 0 59)
  return .minutes (if c = '-' then -n else n)

def timeOfDate : Reader (Time × Option Offset) := do
  let _ ← satisfy fun c => c = 'T' || c = 't' || c = ' '
  return (← time, ← (some <$> offset) <|> return none)

def moment : Reader Moment :=
  (do return .date (← date) (← (some <$> timeOfDate) <|> return none)) <|> .time <$> time

end Reader

end Toml

end PhpAnalyser
