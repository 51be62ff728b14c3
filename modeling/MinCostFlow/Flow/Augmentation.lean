/-
  MinCostFlow.Flow.Augmentation — flow sent along one path.

  The amount is the bottleneck, the least residual capacity on the path. Each arc of
  the path loses that much and its reverse gains it, and the total flow grows by it.
  Everything that can fail is settled before the first cell is written, so a network
  is either augmented or left alone.
-/

import MinCostFlow.Path.TraceBack

namespace MinCostFlow

structure Augmentation where
  /-- The vertices from the source to the sink. -/
  path : List Nat
  bottleneck : Int
  /-- The cost of a unit along the path. -/
  cost : Int
  deriving DecidableEq, Repr

/-- The arcs of a path: each vertex with the next. -/
def hops {α : Type} (path : List α) : List (α × α) := path.zip path.tail

namespace Network

variable {n : Nat}

/-- The least residual capacity on `arcs`, if there are any. -/
def bottleneck? (g : Network n) (arcs : List (Fin n × Fin n)) : Option Int :=
  (arcs.map fun (u, v) => g.residual u v).min?

/-- The cost of a unit along `arcs`, if each partial sum is in range. -/
def unitCost? (r : IntRange) (g : Network n) (arcs : List (Fin n × Fin n)) : Option Int :=
  arcs.foldlM (fun total (u, v) => r.fit? (total + g.cost u v)) 0

/-- Move `amount` of residual capacity from a pair to the opposite pair. -/
def send (r : IntRange) (amount : Int) (residual : Matrix n) (u v : Fin n) : Except Fault (Matrix n) := do
  let left ← r.require .subtractionOverflow (residual u v - amount)
  let residual := residual.set u v left
  let back ← r.require .additionOverflow (residual v u + amount)
  return residual.set v u back

/-- Send `a.bottleneck` along `arcs`, where the total flow becomes `totalFlow`. -/
def sendAlong (r : IntRange) (g : Network n) (arcs : List (Fin n × Fin n)) (a : Augmentation)
    (totalFlow : Int) : Except Fault (Network n) := do
  let residual ← arcs.foldlM (fun m (u, v) => send r a.bottleneck m u v) g.residual
  return { g with residual, totalFlow }

/-- Send as much as possible along the path that the predecessors describe. -/
def augment (r : IntRange) (g : Network n) (predecessors : Array (Option Nat)) (source sink : Nat) :
    Except (Failure SolveError) (Augmentation × Network n) := do
  let path ← traceBack predecessors source sink
  let arcs ← orFault ((hops path).mapM fun (u, v) => Matrix.locate n u v)
  let bottleneck ← expect (.error (.brokenTree sink sink 0)) (g.bottleneck? arcs)
  demand (.fault .saturatedPath) (0 < bottleneck)
  let cost ← expect (.error (.overflow .pathCost)) (g.unitCost? r arcs)
  let totalFlow ← r.require (.error (.overflow .totalFlow)) (g.totalFlow + bottleneck)
  demand (.error (.overflow .reverseResidual)) (arcs.all fun (u, v) => g.residual v u + bottleneck ∈ r)
  let a : Augmentation := ⟨path, bottleneck, cost⟩
  let g' ← orFault (sendAlong r g arcs a totalFlow)
  return (a, g')

/-- Augmenting raises the total flow, and keeps it in range. -/
theorem augment_totalFlow {r : IntRange} {g g' : Network n} {predecessors : Array (Option Nat)}
    {source sink : Nat} {a : Augmentation}
    (h : augment r g predecessors source sink = .ok (a, g')) :
    0 < a.bottleneck ∧ g'.totalFlow = g.totalFlow + a.bottleneck ∧ g'.totalFlow ∈ r := by
  simp only [augment, sendAlong, bind_eq_ok, orFault_eq_ok, expect_eq_ok, demand_eq_ok, pure_eq_ok,
    IntRange.require_eq_ok, Prod.mk.injEq] at h
  obtain ⟨_, _, _, _, b, _, _, hb, _, _, t, ⟨ht, rfl⟩, _, _, _, ⟨_, _, rfl⟩, rfl, rfl⟩ := h
  exact ⟨hb, rfl, ht⟩

end Network

end MinCostFlow
