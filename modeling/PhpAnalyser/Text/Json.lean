/-!
JSON values and their two written forms.
-/
namespace PhpAnalyser

/-- Numbers keep their written form, objects the order of their fields. -/
inductive Json where
  | null
  | bool (value : Bool)
  | number (text : String)
  | string (value : String)
  | array (items : List Json)
  | object (fields : List (String × Json))

namespace Json

def hexDigit (n : Nat) : Char := Char.ofNat (if n < 10 then 48 + n else 87 + n)

def escape (c : Char) : List Char :=
  if c = '"' then ['\\', '"']
  else if c = '\\' then ['\\', '\\']
  else if c = '\n' then ['\\', 'n']
  else if c = '\r' then ['\\', 'r']
  else if c = '\t' then ['\\', 't']
  else if c.toNat = 8 then ['\\', 'b']
  else if c.toNat = 12 then ['\\', 'f']
  else if c.toNat < 32 then
    ['\\', 'u', '0', '0', hexDigit (c.toNat / 16), hexDigit (c.toNat % 16)]
  else [c]

def quote (s : String) : String := String.ofList ('"' :: s.toList.flatMap escape ++ ['"'])

def bracketed (left right : String) (items : List String) : String :=
  left ++ ",".intercalate items ++ right

def compact : Json → String
  | null => "null"
  | bool value => if value then "true" else "false"
  | number text => text
  | string value => quote value
  | array items => bracketed "[" "]" (items.attach.map fun ⟨item, _⟩ => compact item)
  | object fields =>
    bracketed "\x7b" "\x7d"
      (fields.attach.map fun ⟨(key, value), _⟩ => quote key ++ ":" ++ compact value)
  decreasing_by
    · rename_i member
      have := List.sizeOf_lt_of_mem member
      simp only [array.sizeOf_spec]; omega
    · rename_i member
      have := List.sizeOf_lt_of_mem member
      simp only [object.sizeOf_spec, Prod.mk.sizeOf_spec] at *; omega

def newline (depth : Nat) : String := "\n" ++ String.ofList (List.replicate (2 * depth) ' ')

def stacked (left right : String) (depth : Nat) (items : List String) : String :=
  if items.isEmpty then left ++ right
  else
    left ++ newline (depth + 1) ++ ("," ++ newline (depth + 1)).intercalate items ++
      newline depth ++ right

def pretty (depth : Nat) : Json → String
  | array items =>
    stacked "[" "]" depth (items.attach.map fun ⟨item, _⟩ => pretty (depth + 1) item)
  | object fields =>
    stacked "\x7b" "\x7d" depth
      (fields.attach.map fun ⟨(key, value), _⟩ => quote key ++ ": " ++ pretty (depth + 1) value)
  | other => compact other
  termination_by value => sizeOf value
  decreasing_by
    · rename_i member
      have := List.sizeOf_lt_of_mem member
      simp only [array.sizeOf_spec]; omega
    · rename_i member
      have := List.sizeOf_lt_of_mem member
      simp only [object.sizeOf_spec, Prod.mk.sizeOf_spec] at *; omega

end Json

end PhpAnalyser
