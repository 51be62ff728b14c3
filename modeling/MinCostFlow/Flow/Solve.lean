/-
  MinCostFlow.Flow.Solve — a cheapest flow of greatest value.

  A round searches a cheapest path in the residual network and augments along it.
  Rounds follow one another until the sink is out of reach, which is the aim, or
  something fails. Every round raises the total flow and none takes it out of range
  (`augment_totalFlow`), so there are no more rounds than the total flow is below the
  top of the range. A run that fails leaves the augmentations of its rounds in place.
-/

import MinCostFlow.Flow.Augmentation
import MinCostFlow.Network.ArcFlow
import MinCostFlow.Path.Cheapest

namespace MinCostFlow

structure FlowResult where
  /-- The flow of earlier solves included. -/
  totalFlow : Int
  totalCost : Int
  augmentations : List Augmentation
  deriving DecidableEq, Repr

/-- What happened in a round: the passes of the search, the label of the sink if it was reached,
and the augmentation if it was made. -/
structure Round where
  improvements : List Nat
  label : Option Int
  augmentation : Option Augmentation
  deriving DecidableEq, Repr

/-- A sequence of rounds and the network that they leave. -/
structure Run (n : Nat) where
  rounds : List Round
  network : Network n
  /-- A success if the sink was out of reach. -/
  ending : Except (Failure SolveError) Unit

def Run.augmentations {n : Nat} (x : Run n) : List Augmentation := x.rounds.filterMap (·.augmentation)

def Run.after {n : Nat} (first : Round) (x : Run n) : Run n := { x with rounds := first :: x.rounds }

namespace Network

variable {n : Nat}

/-- Augment along the tree that a search has found. -/
def advance (r : IntRange) (g : Network n) (source sink : Fin n)
    (tree : Except (Failure SolveError) (Option PredecessorTree)) :
    Except (Failure SolveError) (Option (Augmentation × Network n)) := do
  match ← tree with
  | none => return none
  | some tree => return some (← augment r g tree.predecessors source sink)

theorem advance_totalFlow {r : IntRange} {g g' : Network n} {source sink : Fin n}
    {tree : Except (Failure SolveError) (Option PredecessorTree)} {a : Augmentation}
    (h : advance r g source sink tree = .ok (some (a, g'))) :
    0 < a.bottleneck ∧ g'.totalFlow = g.totalFlow + a.bottleneck ∧ g'.totalFlow ∈ r := by
  simp only [advance, bind_eq_ok] at h
  obtain ⟨t, rfl, h⟩ := h
  cases t with
  | none => simp [pure_eq_ok] at h
  | some t =>
    simp only [bind_eq_ok, pure_eq_ok, Option.some.injEq] at h
    obtain ⟨_, h, rfl⟩ := h
    exact augment_totalFlow h

/-- Rounds until the sink is out of reach. -/
def exhaust (r : IntRange) (g : Network n) (source sink : Fin n) : Run n :=
  let found := g.search r source
  let tree := found.treeTo sink
  let label := tree.toOption.join.map (·.sinkCost)
  match _ : advance r g source sink tree with
  | .error e => ⟨[⟨found.improvements, label, none⟩], g, .error e⟩
  | .ok none => ⟨[⟨found.improvements, label, none⟩], g, .ok ()⟩
  | .ok (some (a, g')) => (exhaust r g' source sink).after ⟨found.improvements, label, some a⟩
termination_by (r.top - g.totalFlow).toNat
decreasing_by
  obtain ⟨hb, ht, hr⟩ := advance_totalFlow ‹_›
  have := (IntRange.mem_iff.mp hr).2
  omega

end Network

/-- The totals of a run. -/
def Run.result {n : Nat} (r : IntRange) (x : Run n) : Except (Failure SolveError) FlowResult := do
  x.ending
  let cost ← orFault (x.network.flowCost r)
  let totalCost ← expect (.error (.overflow .flowCost)) cost
  return ⟨x.network.totalFlow, totalCost, x.augmentations⟩

/-- What a solve did, the network it left, and its answer. -/
structure Solution (n : Nat) where
  rounds : List Round
  network : Network n
  outcome : Except (Failure SolveError) FlowResult

namespace Network

variable {n : Nat}

/-- The terminals named by two numbers. -/
def terminals (n source sink : Nat) : Except SolveError (Fin n × Fin n) := do
  let s ← (vertex n source).mapError .terminal
  let t ← (vertex n sink).mapError .terminal
  demand (.sameTerminals source) (s ≠ t)
  return (s, t)

/-- Send as much flow as possible from `source` to `sink`, as cheaply as possible, in addition to
the flow that is there. -/
def solveBetween (r : IntRange) (g : Network n) (source sink : Nat) : Solution n :=
  match terminals n source sink with
  | .error e => ⟨[], g, .error (.error e)⟩
  | .ok (s, t) =>
    let x := exhaust r g s t
    ⟨x.rounds, x.network, x.result r⟩

/-- Solve between the terminals of the network. -/
def solve (r : IntRange) (g : Network n) : Solution n := solveBetween r g g.source g.sink

end Network

end MinCostFlow
