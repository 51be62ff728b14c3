/-
  MinCostFlow.Network.Reachability — the vertices that residual capacity leads to.

  `explore` visits vertices breadth first: a queue of vertices that are found but not
  yet expanded, and the vertices that nobody has seen. Expanding `u` moves every unseen
  vertex that `u` has residual capacity to into the queue.
-/

import MinCostFlow.Network.Basic

namespace MinCostFlow.Network

variable {n : Nat}

/-- The unseen vertices that `u` has residual capacity to, and the others. -/
def expand (g : Network n) (u : Fin n) (unseen : List (Fin n)) : List (Fin n) × List (Fin n) :=
  unseen.partition fun v => 0 < g.residual u v

theorem length_expand (g : Network n) (u : Fin n) (unseen : List (Fin n)) :
    (expand g u unseen).1.length + (expand g u unseen).2.length = unseen.length := by
  simp only [expand, List.partition_eq_filter_filter]
  induction unseen with
  | nil => rfl
  | cons v unseen ih => by_cases h : 0 < g.residual u v <;> simp_all <;> omega

/-- The queue and all that is reached from it through unseen vertices. -/
def explore (g : Network n) (queue unseen : List (Fin n)) : List (Fin n) :=
  match queue with
  | [] => []
  | u :: queue =>
    let next := expand g u unseen
    u :: explore g (queue ++ next.1) next.2
termination_by queue.length + unseen.length
decreasing_by
  have := length_expand g u unseen
  simp only [List.length_append, List.length_cons]
  omega

/-- The vertices that can be reached from `start`, itself included, in increasing order. -/
def reachableFrom (g : Network n) (start : Fin n) : List (Fin n) :=
  let found := explore g [start] ((List.finRange n).filter (· ≠ start))
  (List.finRange n).filter (found.contains ·)

def reachable (g : Network n) (start : Nat) : Except ArcError (List (Fin n)) :=
  (vertex n start).map g.reachableFrom

end MinCostFlow.Network
