import PhpAnalyser.Text.CaseTable
/-!
Lowercase of any text. A capital sigma at the end of a word has a small letter of its own.
-/
namespace PhpAnalyser

def inRanges (ranges : List (Nat × Nat)) (c : Char) : Bool :=
  ranges.any fun range => range.1 ≤ c.toNat && c.toNat ≤ range.2

def isCased (c : Char) : Bool := inRanges casedRanges c

def isCaseIgnorable (c : Char) : Bool := inRanges ignorableRanges c

def CaseRange.holds (range : CaseRange) (c : Char) : Bool :=
  range.first ≤ c.toNat && c.toNat ≤ range.last && (c.toNat - range.first) % range.step == 0

def lowerChar (c : Char) : List Char :=
  if c.toNat < 128 then [c.toLower]
  else if c.toNat = 0x130 then ['i', Char.ofNat 0x307]
  else
    match capitalRanges.find? (·.holds c) with
    | some range => [Char.ofNat (c.toNat + range.shift).toNat]
    | none => [c]

/-- Whether a letter with case comes first, ignorable characters apart. -/
def leadsToCased (text : List Char) : Bool :=
  (text.dropWhile isCaseIgnorable).head?.any isCased

/-- `before` is the text in front, from its end. -/
def lowerFrom (before : List Char) : List Char → List Char
  | [] => []
  | c :: text =>
    let small :=
      if c = 'Σ' then [if leadsToCased before && !leadsToCased text then 'ς' else 'σ']
      else lowerChar c
    small ++ lowerFrom (c :: before) text

def lowercase (s : String) : String := String.ofList (lowerFrom [] s.toList)

end PhpAnalyser
