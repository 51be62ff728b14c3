/-
  MinCostFlow.Network.Cut — cuts and their capacities.

  A cut is given by the vertices on the side of the source. Its capacity is the sum of
  the capacities of the arcs that leave that side.
-/

import MinCostFlow.Network.Reachability

namespace MinCostFlow.Network

variable {n : Nat}

/-- The side of `source` in the cut that the residual capacities certify. -/
def minimumCut (g : Network n) (source : Nat) : Except ArcError (List (Fin n)) := g.reachable source

/-- The pairs that leave `side`. A vertex that is listed twice has its arcs listed twice. -/
def leaving (side : List (Fin n)) : List (Fin n × Fin n) :=
  let outside := (List.finRange n).filter (· ∉ side)
  side.flatMap fun u => outside.map fun v => (u, v)

/-- The sum of the capacities that leave `side`, if each partial sum is in range. -/
def capacityLeaving (r : IntRange) (g : Network n) (side : List (Fin n)) : Option Int :=
  (leaving side).foldlM (fun total (u, v) => r.fit? (total + g.capacity u v)) 0

/-- The capacity of the cut around the vertices that `side` names. -/
def cutCapacity (r : IntRange) (g : Network n) (side : List Nat) : Except ArcError (Option Int) :=
  (side.mapM (vertex n)).map (capacityLeaving r g)

end MinCostFlow.Network
