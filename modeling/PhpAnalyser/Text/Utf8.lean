import PhpAnalyser.Lexeme.Token
/-!
Source files are UTF-8. The first fault of a byte string is what keeps the longest valid start
from growing: the bytes that a longer character could have started with, or one byte.
-/
namespace PhpAnalyser

/-- What a character owes: `rest` further bytes, the first of them from `low` to `high`. -/
structure Owed where
  rest : Nat
  low : Nat
  high : Nat
  deriving DecidableEq, Repr

def Owed.ofLead (b : Nat) : Option Owed :=
  if 0xC2 ≤ b ∧ b ≤ 0xDF then some ⟨1, 0x80, 0xBF⟩
  else if b = 0xE0 then some ⟨2, 0xA0, 0xBF⟩
  else if b = 0xED then some ⟨2, 0x80, 0x9F⟩
  else if 0xE1 ≤ b ∧ b ≤ 0xEF then some ⟨2, 0x80, 0xBF⟩
  else if b = 0xF0 then some ⟨3, 0x90, 0xBF⟩
  else if 0xF1 ≤ b ∧ b ≤ 0xF3 then some ⟨3, 0x80, 0xBF⟩
  else if b = 0xF4 then some ⟨3, 0x80, 0x8F⟩
  else none

def leadBits (rest b : Nat) : Nat := b % (64 >>> rest)

def tailOf (value : Nat) : Nat → Owed → List UInt8 → Except Nat (Nat × List UInt8)
  | _, ⟨0, _, _⟩, bytes => .ok (value, bytes)
  | fits, ⟨_ + 1, _, _⟩, [] => .error fits
  | fits, ⟨rest + 1, low, high⟩, b :: bytes =>
    if low ≤ b.toNat ∧ b.toNat ≤ high then
      tailOf (value * 64 + b.toNat % 64) (fits + 1) ⟨rest, 0x80, 0xBF⟩ bytes
    else .error fits
  termination_by _ owed _ => owed.rest

/-- The first character and the bytes behind it, or the length of the fault. -/
def firstChar (b : UInt8) (bytes : List UInt8) : Except Nat (Char × List UInt8) :=
  if b.toNat < 0x80 then .ok (Char.ofNat b.toNat, bytes)
  else
    match Owed.ofLead b.toNat with
    | none => .error 1
    | some owed =>
      match tailOf (leadBits owed.rest b.toNat) 0 owed bytes with
      | .ok (value, rest) => .ok (Char.ofNat value, rest)
      | .error fits => .error (fits + 1)

structure DecodedStart where
  chars : List Char
  /-- The length of the fault behind the characters. -/
  fault : Option Nat
  deriving DecidableEq, Repr

/-- The characters of a byte string up to its first fault. Every character takes a byte, so
`fuel` is the number of bytes. -/
def decodeStart : Nat → List UInt8 → DecodedStart
  | 0, _ => ⟨[], none⟩
  | _, [] => ⟨[], none⟩
  | fuel + 1, b :: bytes =>
    match firstChar b bytes with
    | .error n => ⟨[], some n⟩
    | .ok (c, rest) =>
      let decoded := decodeStart fuel rest
      ⟨c :: decoded.chars, decoded.fault⟩

structure LexError where
  fault : LexFault
  span : Span
  deriving DecidableEq, Repr

/-- The text of a byte string, or its first fault, at the place behind the text before it. -/
def decodeSource (bytes : List UInt8) : Except LexError String :=
  let decoded := decodeStart bytes.length bytes
  match decoded.fault with
  | none => .ok (String.ofList decoded.chars)
  | some n =>
    let start := (String.ofList decoded.chars).utf8ByteSize
    let place := Position.behind decoded.chars
    .error ⟨.invalidUtf8, ⟨start, start + n, place, place⟩⟩

end PhpAnalyser
