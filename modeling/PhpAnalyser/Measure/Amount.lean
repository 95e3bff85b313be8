import PhpAnalyser.Text.SortedMap
/-!
Measured amounts. The sum of no amounts is told apart from a counted zero: it adds nothing to any
other amount, and it is written with a minus sign.
-/
namespace PhpAnalyser

inductive Amount where
  | nothing
  | whole (n : Nat)
  deriving DecidableEq, Repr

namespace Amount

def add : Amount → Amount → Amount
  | nothing, b => b
  | whole m, nothing => whole m
  | whole m, whole n => whole (m + n)

def sum (amounts : List Amount) : Amount := amounts.foldl add nothing

def toNat : Amount → Nat
  | nothing => 0
  | whole n => n

def text : Amount → String
  | nothing => "-0"
  | whole n => toString n

theorem to_nat_add (a b : Amount) : (a.add b).toNat = a.toNat + b.toNat := by
  cases a <;> cases b <;> simp [add, toNat]

end Amount

abbrev MetricMap := SortedMap Amount

def MetricMap.ofCounts (counts : List (String × Nat)) : MetricMap :=
  SortedMap.ofList (counts.map fun entry => (entry.1, .whole entry.2))

end PhpAnalyser
