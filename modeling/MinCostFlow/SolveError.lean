/-
  MinCostFlow.SolveError — the ways in which sending flow can fail.
-/

import MinCostFlow.Network.Basic

namespace MinCostFlow

/-- What was being calculated when a number left its range. -/
inductive Calculation where
  | costLabel
  | pathCost
  | totalFlow
  | reverseResidual
  | flowCost
  deriving DecidableEq, Repr

def Calculation.phrase : Calculation → String
  | .costLabel => "computing a path cost label"
  | .pathCost => "computing the cost of a path"
  | .totalFlow => "accumulating the total flow"
  | .reverseResidual => "increasing a reverse residual capacity"
  | .flowCost => "computing the flow cost"

inductive SolveError where
  | terminal (e : ArcError)
  | sameTerminals (vertex : Nat)
  /-- The predecessors do not lead back from the sink to the source. -/
  | brokenTree (sink reached steps : Nat)
  | overflow (during : Calculation)
  deriving DecidableEq, Repr

def SolveError.message : SolveError → String
  | .terminal e => e.message
  | .sameTerminals vertex => s!"source and sink are both vertex {vertex}"
  | .brokenTree sink reached steps =>
    s!"walking back from sink {sink} stopped at vertex {reached} after {steps} steps " ++
      "without reaching the source"
  | .overflow during => s!"arithmetic overflow while {during.phrase}"

end MinCostFlow
