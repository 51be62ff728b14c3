/-
  MinCostFlow.Log.Solving — the course of a solve, round by round.

  Passes of a search are numbered from 0 and augmentations from 1.
-/

import MinCostFlow.Flow.Solve
import MinCostFlow.Log.Record

namespace MinCostFlow.Log

def solverTarget : String := "remcf::algorithm::successive_shortest_path"

def searchTarget : String := "remcf::algorithm::successive_shortest_path::cheapest_path"

def pass (number improved : Nat) : Record :=
  ⟨.trace, searchTarget, s!"Pass {number}: {improved} labels improved"⟩

def sinkReached (label : Int) : Record :=
  ⟨.trace, solverTarget, s!"Sink reached with label {label}"⟩

def augmented (number : Nat) (a : Augmentation) : Record :=
  let path := String.intercalate ", " (a.path.map toString)
  ⟨.debug, solverTarget,
    s!"Augmentation {number}: {a.bottleneck} units along [{path}] at {a.cost} per unit"⟩

def solved (source sink : Nat) (result : FlowResult) : Record :=
  let count := result.augmentations.length
  ⟨.info, solverTarget,
    s!"Flow from {source} to {sink} is {result.totalFlow} at cost {result.totalCost} " ++
      s!"after {count} augmentations"⟩

/-- The records of the round that comes after `before` others. -/
def round (before : Nat) (x : Round) : List Record :=
  x.improvements.mapIdx pass ++ x.label.toList.map sinkReached ++
    x.augmentation.toList.map (augmented (before + 1))

/-- The records of a solve between the terminals. -/
def solution {n : Nat} (source sink : Nat) (x : Solution n) : List Record :=
  (x.rounds.mapIdx round).flatten ++ x.outcome.toOption.toList.map (solved source sink)

end MinCostFlow.Log
