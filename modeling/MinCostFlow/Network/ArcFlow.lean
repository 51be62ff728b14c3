/-
  MinCostFlow.Network.ArcFlow — the flow in a network, arc by arc.

  The flow on an arc is what its residual capacity has lost. Only arcs that were added
  with a capacity are looked at, and only a positive flow is listed, so a pair of
  opposite arcs is listed in one direction at most.
-/

import MinCostFlow.Network.Basic

namespace MinCostFlow

structure ArcFlow where
  tail : Nat
  head : Nat
  flow : Int
  /-- The cost of a unit. -/
  cost : Int
  deriving DecidableEq, Repr

namespace Network

variable {n : Nat}

/-- What has been sent from `u` to `v`; negative if more was sent the other way. -/
def arcFlow (r : IntRange) (g : Network n) (u v : Fin n) : Except Fault ArcFlow := do
  let flow ← r.require .subtractionOverflow (g.capacity u v - g.residual u v)
  return ⟨u, v, flow, g.cost u v⟩

/-- The arcs that carry flow, by tail and then by head. -/
def arcFlows (r : IntRange) (g : Network n) : Except Fault (List ArcFlow) := do
  let arcs := Matrix.pairsWhere n fun u v => g.capacity u v != 0
  let flows ← arcs.mapM fun (u, v) => arcFlow r g u v
  return flows.filter (0 < ·.flow)

/-- One more arc on the bill. -/
def addCost (r : IntRange) (total : Int) (a : ArcFlow) : Option Int := do
  let c ← r.fit? (a.flow * a.cost)
  r.fit? (total + c)

/-- What the flow in the network costs, if each product and each partial sum is in range. -/
def flowCost (r : IntRange) (g : Network n) : Except Fault (Option Int) :=
  (arcFlows r g).map fun flows => flows.foldlM (addCost r) 0

end Network

end MinCostFlow
