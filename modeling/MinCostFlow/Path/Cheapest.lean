/-
  MinCostFlow.Path.Cheapest — a cheapest way from the source to the sink.

  Costs may be negative, so labels are corrected until nothing improves: a pass
  relaxes every arc with residual capacity, by tail and then by head, and there are at
  most as many passes as vertices. A pass without an improvement is the last, because
  any further pass would find the same labels and do nothing.
  Cycles of negative cost are not looked for. With one, the predecessors that come out
  of the last pass need not form a tree.
-/

import MinCostFlow.Path.Labels

namespace MinCostFlow

/-- What is found when the sink is reached. -/
structure PredecessorTree where
  /-- For each vertex the one before it on its cheapest known way. -/
  predecessors : Array (Option Nat)
  sinkCost : Int
  deriving DecidableEq, Repr

/-- A finished search: the number of improvements of each finished pass, and the labels at the end
unless one of them overflowed or there were too many improvements to count. -/
structure Search (n : Nat) where
  improvements : List Nat
  labels : Except (Failure SolveError) (Labels n)
  deriving Repr

namespace Network

variable {n : Nat}

/-- The arcs that a search may use. -/
def residualArcs (g : Network n) : List (Fin n × Fin n) :=
  Matrix.pairsWhere n fun u v => u != v && g.residual u v != 0

/-- Up to `passes` passes, ended early by one that improves nothing. -/
def correct (r : IntRange) (g : Network n) (arcs : List (Fin n × Fin n)) :
    (passes : Nat) → Labels n → Search n
  | 0, labels => ⟨[], .ok labels⟩
  | passes + 1, labels =>
    match Labels.relaxAll r g arcs labels with
    | .error e => ⟨[], .error e⟩
    | .ok p =>
      if p.improved = 0 then ⟨[0], .ok p.labels⟩
      else
        let rest := correct r g arcs passes p.labels
        ⟨p.improved :: rest.improvements, rest.labels⟩

def search (r : IntRange) (g : Network n) (source : Fin n) : Search n :=
  correct r g g.residualArcs n (Labels.start source)

end Network

namespace Labels

variable {n : Nat}

def predecessors (labels : Labels n) : Array (Option Nat) :=
  labels.toArray.map fun l? => l?.bind fun l => l.parent.map (·.val)

/-- The tree for a sink that was reached from another vertex. -/
def treeTo (labels : Labels n) (sink : Fin n) : Option PredecessorTree :=
  match labels.label sink with
  | some ⟨cost, some _⟩ => some ⟨labels.predecessors, cost⟩
  | _ => none

end Labels

/-- The tree for `sink`, or `none` if it was not reached. -/
def Search.treeTo {n : Nat} (s : Search n) (sink : Fin n) : Except (Failure SolveError) (Option PredecessorTree) :=
  s.labels.map fun labels => labels.treeTo sink

/-- Search for a cheapest path between vertices given by number. -/
def Network.cheapestPath {n : Nat} (r : IntRange) (g : Network n) (source sink : Nat) :
    Except (Failure SolveError) (Option PredecessorTree) :=
  match vertex n source, vertex n sink with
  | .ok s, .ok t => (g.search r s).treeTo t
  | _, _ => .error (.fault .terminalOutOfRange)

end MinCostFlow
