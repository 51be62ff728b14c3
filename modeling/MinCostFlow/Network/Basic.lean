/-
  MinCostFlow.Network.Basic — a capacitated network with costs and residual
  capacities.

  A network of `n` vertices has for every ordered pair of vertices the capacity of
  the arc that was added there (zero if none was), the residual capacity that is left
  on the pair, and the cost of a unit of flow along it. Adding an arc `u -> v` of cost
  `k` gives `v -> u` the cost `-k`: taking flow back refunds what it cost. Two arcs
  that join the same vertices in opposite directions share these cells, and the one
  added last decides their cost.

  Flow is sent by lowering the residual capacity of a pair and raising that of the
  opposite pair by the same amount.
-/

import MinCostFlow.IntRange
import MinCostFlow.Matrix.Basic
import MinCostFlow.Outcome

namespace MinCostFlow

structure Network (n : Nat) where
  capacity : Matrix n
  residual : Matrix n
  cost : Matrix n
  source : Nat
  sink : Nat
  /-- The flow that all augmentations so far have sent. -/
  totalFlow : Int
  deriving DecidableEq, Repr

/-- Why an arc cannot be added, or a vertex cannot be used. -/
inductive ArcError where
  | outOfRange (vertex vertexCount : Nat)
  | negativeCapacity (tail head : Nat)
  deriving DecidableEq, Repr

def ArcError.message : ArcError → String
  | .outOfRange vertex vertexCount =>
    s!"vertex {vertex} is out of range for a network of {vertexCount} vertices"
  | .negativeCapacity tail head => s!"arc {tail} -> {head} has a negative capacity"

namespace Network

variable {n : Nat}

/-- No arcs; flow is to be sent from the first vertex to the last. -/
def withZeros (zeros : Matrix n) : Network n :=
  { capacity := zeros, residual := zeros, cost := zeros
    source := 0, sink := n - 1, totalFlow := 0 }

def empty (n : Nat) : Network n := withZeros (Matrix.zeros n)

/-- The network without arcs, for a number of vertices given at run time. -/
def create (vertexCount : Nat) : Except Fault (Network vertexCount) :=
  (Matrix.create vertexCount).map withZeros

/-- The vertex named by a number, if there is one. -/
def vertex (n v : Nat) : Except ArcError (Fin n) :=
  if h : v < n then .ok ⟨v, h⟩ else .error (.outOfRange v n)

/-- Put an arc in place of what was there. -/
def setArc (g : Network n) (u v : Fin n) (capacity cost : Int) : Network n :=
  { g with
    capacity := g.capacity.set u v capacity
    residual := g.residual.set u v capacity
    cost := (g.cost.set u v cost).set v u (-cost) }

/-- Add an arc, or replace the arc that is there. The opposite cost has to be in range too, which
fails for the bottom of the range alone. -/
def addArc (r : IntRange) (g : Network n) (tail head : Nat) (capacity cost : Int) :
    Except (Failure ArcError) (Network n) := do
  let u ← orError (vertex n tail)
  let v ← orError (vertex n head)
  demand (.error (.negativeCapacity tail head)) (0 ≤ capacity)
  let _ ← r.require (.fault .negationOverflow) (-cost)
  return g.setArc u v capacity cost

/-- Choose the vertices between which flow is sent. -/
def setTerminals (g : Network n) (source sink : Nat) : Except ArcError (Network n) := do
  let s ← vertex n source
  let t ← vertex n sink
  return { g with source := s, sink := t }

/-- A pair takes part in searches while its residual capacity is not zero. -/
def arcExists (g : Network n) (tail head : Nat) : Except Fault Bool :=
  (g.residual.read tail head).map (· != 0)

end Network

end MinCostFlow
