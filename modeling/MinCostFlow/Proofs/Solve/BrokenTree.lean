/-
  MinCostFlow.Proofs.Solve.BrokenTree — a solve that reports a broken tree has met a cycle
  of negative cost.

  Nothing in a solve looks for such cycles. What is noticed is that the way back from the
  sink is still not at the source after as many steps as there are vertices. By then it goes
  round in a cycle of parents, and those have a negative cost, however often labels have
  been improved since the cycle was closed. The failed round leaves the network as it was
  searched.

  Proved, of every network that callers can come to: the report names the sink and the
  number of vertices, and the vertex that it says was reached lies on a cycle of negative
  cost in the residual network that the solve leaves (`solveBetween_broken_tree`). So
  without such cycles there is no such report (`RoundEnds.not_broken`).
-/

import MinCostFlow.Proofs.Solve.Endings

namespace MinCostFlow

variable {n : Nat} {r : IntRange} {g : Network n} {s t : Fin n} {source sink k reached steps : Nat}

/-- The round has ended on a cycle of parents, which has a negative cost. -/
theorem RoundEnds.broken (h : RoundEnds r g s t (.error (.error (.brokenTree k reached steps)))) (hg : Sound r g) :
    k = t ∧ steps = n ∧ ∃ v : Fin n, v.val = reached ∧
      ∃ c, Walk g.residual v c v ∧ Simple c ∧ costOf g.cost c < 0 := by
  rcases h.of_error with ⟨_, -, he⟩ | ⟨-, he⟩ | ⟨labels, v, hl, hv, he⟩
  · cases he
  · cases he
  · cases he
    have hgrounded := Network.search_grounded hg.residual_nonneg hl
    have hnegative := Network.search_cyclesNegative hg.residual_nonneg hl
    exact ⟨rfl, rfl, v, rfl, hv.exists_negative hgrounded hnegative⟩

theorem RoundEnds.not_broken (hk : NoNegativeCycle g.residual g.cost) (hg : Sound r g) :
    ¬RoundEnds r g s t (.error (.error (.brokenTree k reached steps))) := by
  intro h
  obtain ⟨-, -, v, -, c, hc, hs, hneg⟩ := h.broken hg
  have := hk v c hc hs
  omega

/-- A broken tree is reported only where the residual network has a cycle of negative cost, and the
vertex that was reached is on it. -/
theorem solveBetween_broken_tree (hg : Reach r g)
    (h : (g.solveBetween r source sink).outcome = .error (.error (.brokenTree k reached steps))) :
    let final := (g.solveBetween r source sink).network
    k = sink ∧ steps = n ∧ ∃ v : Fin n, v.val = reached ∧
      ∃ c, Walk final.residual v c v ∧ Simple c ∧ costOf final.cost c < 0 := by
  have hsound := reach_sound hg
  rcases Network.solveBetween_eq_error hsound h with ⟨_, h⟩ | ⟨_, h⟩ | ⟨s, t, -, rfl, -, hrounds, h | ⟨-, h⟩⟩
  · cases h
  · cases h
  · exact h.broken (hrounds.sound hsound)
  · cases h

/-- The cycle `2 -> 3 -> 4 -> 5 -> 2` can be reached from `0`, and `1` from the cycle. -/
def whirl : Network 6 :=
  (((((((Network.empty 6).setArc 0 1 1 (-9)).setArc 0 2 1 0).setArc 2 3 1 1).setArc 3 4 1 1).setArc 4 5 1 1).setArc 5 2
    1 (-4)).setArc 4 1 2 0

theorem whirl_built : Built (.ofBits 8) whirl :=
  (built_empty (by decide)).setArcs
    [(0, 1, 1, -9), (0, 2, 1, 0), (2, 3, 1, 1), (3, 4, 1, 1), (4, 5, 1, 1), (5, 2, 1, -4), (4, 1, 2, 0)] (by decide)

/-- The first round does not meet the cycle and sends a unit. -/
theorem whirl_broken_tree : (whirl.solveBetween (.ofBits 8) 0 1).outcome = .error (.error (.brokenTree 1 3 6)) ∧
    (whirl.solveBetween (.ofBits 8) 0 1).network.totalFlow = 1 ∧
    ∃ c, Walk (whirl.solveBetween (.ofBits 8) 0 1).network.residual 3 c 3 ∧ Simple c ∧
      costOf (whirl.solveBetween (.ofBits 8) 0 1).network.cost c < 0 := by
  have h : (whirl.solveBetween (.ofBits 8) 0 1).outcome = .error (.error (.brokenTree 1 3 6)) := by decide +kernel
  obtain ⟨-, -, v, hv, hc⟩ := solveBetween_broken_tree (.built whirl_built) h
  obtain rfl : v = 3 := Fin.ext hv
  exact ⟨h, by decide +kernel, hc⟩

end MinCostFlow
