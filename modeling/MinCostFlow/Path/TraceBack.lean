/-
  MinCostFlow.Path.TraceBack — from predecessors to a path.

  The walk starts at the sink and goes from each vertex to its predecessor until it
  meets the source. A walk that takes as many steps as there are predecessors visits
  some vertex twice, so it never ends and is given up there.
-/

import MinCostFlow.SolveError

namespace MinCostFlow

/-- The predecessor of `v`; it is a fault to ask for a vertex outside of the list. -/
def predecessor (predecessors : Array (Option Nat)) (v : Nat) : Except Fault (Option Nat) :=
  match predecessors[v]? with
  | some p => .ok p
  | none => .error (.predecessorOutOfRange v predecessors.size)

/-- The walk is given up after `steps` steps. -/
def lost (sink current steps : Nat) : Except (Failure SolveError) (List Nat) :=
  .error (.error (.brokenTree sink current steps))

/-- Walk on from the head of `path`, the vertices from `current` to the sink, with a number of
steps left. The predecessor is asked for even if there is no step left to go to it. -/
def walkBack (predecessors : Array (Option Nat)) (source sink : Nat) :
    (remaining current : Nat) → (path : List Nat) → Except (Failure SolveError) (List Nat)
  | 0, current, path =>
    if current = source then .ok path
    else do
      let _ ← orFault (predecessor predecessors current)
      lost sink current predecessors.size
  | remaining + 1, current, path =>
    if current = source then .ok path
    else do
      match ← orFault (predecessor predecessors current) with
      | none => lost sink current (predecessors.size - (remaining + 1))
      | some next => walkBack predecessors source sink remaining next (next :: path)

/-- The path from `source` to `sink` that the predecessors describe. -/
def traceBack (predecessors : Array (Option Nat)) (source sink : Nat) :
    Except (Failure SolveError) (List Nat) :=
  walkBack predecessors source sink predecessors.size sink [sink]

end MinCostFlow
