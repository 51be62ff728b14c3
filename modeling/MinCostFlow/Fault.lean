/-
  MinCostFlow.Fault — what stops a calculation for good.

  An operation that is given bad input answers with an error of its own, which the
  caller can handle. A fault is different: a caller broke a rule (an index outside
  of a matrix) or a number left its range where no error is foreseen. Nothing can be
  asked of the values involved after a fault.
-/

namespace MinCostFlow

inductive Fault where
  /-- A matrix of this order has more cells than can be counted in 64 bits. -/
  | orderTooLarge (order : Nat)
  | indexOutOfRange (row column order : Nat)
  | negationOverflow
  | additionOverflow
  | subtractionOverflow
  /-- There was one more to count than a counter holds. -/
  | counterOverflow
  /-- Flow was to be pushed along a path with an arc that has nothing left. -/
  | saturatedPath
  | terminalOutOfRange
  | predecessorOutOfRange (index length : Nat)
  deriving DecidableEq, Repr

def Fault.message : Fault → String
  | .orderTooLarge order => s!"a matrix of order {order} is too large"
  | .indexOutOfRange row column order => s!"index ({row}, {column}) out of range for order {order}"
  | .negationOverflow => "attempt to negate with overflow"
  | .additionOverflow => "attempt to add with overflow"
  | .subtractionOverflow => "attempt to subtract with overflow"
  | .counterOverflow => "attempt to add with overflow"
  | .saturatedPath => "assertion failed: bottleneck.is_positive()"
  | .terminalOutOfRange => "assertion failed: source < n && sink < n"
  | .predecessorOutOfRange index length =>
    s!"index out of bounds: the len is {length} but the index is {index}"

end MinCostFlow
