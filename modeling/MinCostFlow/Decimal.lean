/-
  MinCostFlow.Decimal — numbers written in decimal.

  A natural number is one or more of the digits 0 to 9; leading zeros are allowed. A
  plus sign may precede any number and a minus sign one that can be negative. Nothing
  else may stand around the digits, and the value has to be in range.
-/

import MinCostFlow.IntRange

namespace MinCostFlow.Decimal

def natural? (digits : List Char) : Option Nat :=
  if digits ≠ [] ∧ digits.all Char.isDigit then some (Nat.ofDigitChars 10 digits 0) else none

def unsigned? : List Char → Option Nat
  | '+' :: digits => natural? digits
  | digits => natural? digits

def signed? : List Char → Option Int
  | '+' :: digits => (natural? digits).map Int.ofNat
  | '-' :: digits => (natural? digits).map fun k => -(k : Int)
  | digits => (natural? digits).map Int.ofNat

/-- A number that names a vertex. -/
def index? (text : String) : Option Nat := (unsigned? text.toList).filter (· < indexLimit)

/-- A capacity, a cost or a flow. -/
def value? (r : IntRange) (text : String) : Option Int := (signed? text.toList).filter (· ∈ r)

end MinCostFlow.Decimal
