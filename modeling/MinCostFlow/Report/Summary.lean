/-
  MinCostFlow.Report.Summary — a solved network as text.

  The augmentations with their paths, the arcs that carry flow, the totals and the
  source side of the minimum cut.
-/

import MinCostFlow.Flow.Solve

namespace MinCostFlow.Report

/-- The path, the units sent and the cost of each: `0 -> 1 -> 3 (1)  $2`. -/
def augmentation (a : Augmentation) : String :=
  let route := String.intercalate " -> " (a.path.map toString)
  s!"{route} ({a.bottleneck})  ${a.cost}"

/-- The arc, the units on it and the cost of each: `Flow 0 -> 1 (1)  $1`. -/
def arcFlow (a : ArcFlow) : String := s!"Flow {a.tail} -> {a.head} ({a.flow})  ${a.cost}"

def unlines (lines : List String) : String := String.join (lines.map (· ++ "\n"))

def vertexSet (vertices : List Nat) : String :=
  "\x7b" ++ String.intercalate ", " (vertices.map toString) ++ "\x7d"

/-- The parts of a summary, one line each. -/
def summaryLines (result : FlowResult) (flows : List ArcFlow) (cut : List Nat) : List String :=
  ["WEIGHTED FLOW:"] ++ result.augmentations.map augmentation ++ [""] ++
    ["FINAL EDGE FLOW:"] ++ flows.map arcFlow ++
    [s!"TOTAL FLOW: {result.totalFlow}", s!"TOTAL COST: {result.totalCost}",
      s!"MINIMUM CUT: {vertexSet cut}"]

def summary {n : Nat} (r : IntRange) (g : Network n) (result : FlowResult) (cut : List Nat) :
    Except Fault String :=
  (g.arcFlows r).map fun flows => unlines (summaryLines result flows cut)

end MinCostFlow.Report
