/-
  MinCostFlow.Proofs.Reach.OnlyFault — whatever calls have led to a network, it can be solved
  and asked, unless there is too much to count.

  Some sums and differences are not checked, and neither is that something is left on a path
  before flow is sent along it. What guards them is what holds of every network that callers
  can come to (`Sound`): also after an arc that carries flow was replaced, after a failed
  solve, and after flow was sent along predecessors of a caller's own. A capacity and what is
  left of it lie between zero and the top of the range, so their difference can be stored.
  A search labels vertices along pairs that have something left, so there is a bottleneck to
  send; and sending it adds to a pair only what was checked before.

  Nothing guards the count of a pass. It is in range because there are no more arcs than
  pairs of vertices, as long as there are few vertices.

  Proved: no capacity, residual capacity or total flow is negative, and every question is
  answered, or refused because of a vertex that is not there. Searches and solves end with a
  fault just where a search is crowded, which takes 46342 vertices (`reach_only_fault`).
-/

import MinCostFlow.Proofs.Cut.Minimum
import MinCostFlow.Proofs.Search.Cascade
import MinCostFlow.Proofs.Search.Reached
import MinCostFlow.Proofs.Solve.Endings

namespace MinCostFlow

variable {n : Nat} {r : IntRange} {g : Network n}

namespace Network

/-! ## Questions -/

theorem minimumCut_answers (g : Network n) (source : Nat) :
    (∃ cut, g.minimumCut source = .ok cut) ∨ n ≤ source ∧ g.minimumCut source = .error (.outOfRange source n) := by
  by_cases h : source < n
  · exact Or.inl ⟨_, g.minimumCut_eq ⟨source, h⟩⟩
  · have hout : vertex n source = .error (.outOfRange source n) := vertex_eq_error.mpr ⟨by omega, rfl⟩
    refine Or.inr ⟨by omega, ?_⟩
    rw [minimumCut, reachable, hout]
    rfl

theorem cutCapacity_answers (r : IntRange) (g : Network n) (side : List Nat) :
    (∃ total, g.cutCapacity r side = .ok total) ∨
      ∃ v ∈ side, n ≤ v ∧ g.cutCapacity r side = .error (.outOfRange v n) := by
  cases hfind : side.find? (n ≤ ·) with
  | none =>
    have hin : ∀ v ∈ side, v < n := by simpa using hfind
    obtain ⟨us, rfl⟩ := exists_vertices hin
    exact Or.inl ⟨_, cutCapacity_vertices r g us⟩
  | some v =>
    have hout : n ≤ v := by simpa using List.find?_some hfind
    exact Or.inr ⟨v, List.mem_of_find?_eq_some hfind, hout, cutCapacity_outside r g hfind⟩

end Network

/-- Nothing that is not checked can go wrong in a network that callers can come to, but that a search has too
many improvements to count. -/
theorem reach_only_fault (hg : Reach r g) :
    (∀ u v, 0 ≤ g.capacity u v ∧ 0 ≤ g.residual u v) ∧ 0 ≤ g.totalFlow ∧
    (∀ source sink, (∃ result, (g.solveBetween r source sink).outcome = .ok result) ∨
      (∃ e, (g.solveBetween r source sink).outcome = .error (.error e)) ∨
      (g.solveBetween r source sink).outcome = .error (.fault .counterOverflow)) ∧
    (∀ source sink, (g.solveBetween r source sink).outcome = .error (.fault .counterOverflow) ↔
      ∃ s t : Fin n, s.val = source ∧ t.val = sink ∧ s ≠ t ∧ (g.solveBetween r source sink).network.Crowded r s) ∧
    (∃ flows, g.arcFlows r = .ok flows) ∧
    (∃ cost, g.flowCost r = .ok cost) ∧
    (∀ source, (∃ cut, g.minimumCut source = .ok cut) ∨
      n ≤ source ∧ g.minimumCut source = .error (.outOfRange source n)) ∧
    (∀ side, (∃ total, g.cutCapacity r side = .ok total) ∨
      ∃ v ∈ side, n ≤ v ∧ g.cutCapacity r side = .error (.outOfRange v n)) ∧
    (∀ s t : Fin n, (∃ answer, g.cheapestPath r s t = .ok answer) ∨
      g.cheapestPath r s t = .error (.error (.overflow .costLabel)) ∨
      g.cheapestPath r s t = .error (.fault .counterOverflow)) ∧
    (∀ s t : Fin n, g.cheapestPath r s t = .error (.fault .counterOverflow) ↔ g.Crowded r s) ∧
    ∀ (h : Network n) (s : Fin n), h.Crowded r s → 46342 ≤ n := by
  have hsound := reach_sound hg
  refine ⟨?_, hsound.flow_nonneg, ?_, ?_, ?_, ?_, ?_, ?_, ?_, ?_, ?_⟩
  · intro u v
    exact ⟨hsound.capacity_nonneg u v, hsound.residual_nonneg u v⟩
  · intro source sink
    exact solveBetween_returns hsound source sink
  · intro source sink
    simpa using solveBetween_fault_iff (f := .counterOverflow) hsound source sink
  · exact ⟨_, Network.arcFlows_eq hsound⟩
  · exact Network.flowCost_returns hsound
  · intro source
    exact g.minimumCut_answers source
  · intro side
    exact g.cutCapacity_answers r side
  · intro s t
    rcases g.cheapestPath_cases r s t with ⟨labels, -, hanswer⟩ | hover | ⟨hfault, -⟩
    · exact Or.inl ⟨_, hanswer⟩
    · exact Or.inr (Or.inl hover)
    · exact Or.inr (Or.inr hfault)
  · intro s t
    rw [Network.cheapestPath_fault_iff, eq_self, true_and]
  · intro h s hc
    exact hc.vertices

/-- A solve, an arc in place of one that carries flow, and a cycle of negative cost after that. -/
theorem refilled_only_fault : (∀ source sink, (∃ result, (refilled.solveBetween (.ofBits 32) source sink).outcome = .ok result) ∨
      ∃ e, (refilled.solveBetween (.ofBits 32) source sink).outcome = .error (.error e)) ∧
    (∃ flows, refilled.arcFlows (.ofBits 32) = .ok flows) ∧ ∃ cost, refilled.flowCost (.ofBits 32) = .ok cost := by
  obtain ⟨-, -, hsolve, hfault, hflows, hcost, -, -, -, -, hvertices⟩ := reach_only_fault refilled_reach
  refine ⟨fun source sink => ?_, hflows, hcost⟩
  rcases hsolve source sink with hok | herror | hover
  · exact Or.inl hok
  · exact Or.inr herror
  · obtain ⟨s, _, -, -, -, hcrowded⟩ := (hfault source sink).mp hover
    exact absurd (hvertices _ s hcrowded) (by decide)

/-- A cascade is a network that callers can come to, and both a search and a solve of it end with the fault. -/
theorem cascade_only_fault : Reach (.ofBits 64) (cascade 65537) ∧
    (cascade 65537).cheapestPath (.ofBits 64) 0 65536 = .error (.fault .counterOverflow) ∧
    ((cascade 65537).solveBetween (.ofBits 64) 0 65536).outcome = .error (.fault .counterOverflow) := by
  obtain ⟨hbuilt, hcrowded⟩ := longCascade_crowded
  have hne : (0 : Fin 65537) ≠ Fin.last 65536 := by decide
  have hsearch := Network.cheapestPath_fault_iff (t := Fin.last 65536) |>.mpr ⟨rfl, hcrowded⟩
  exact ⟨.built hbuilt, hsearch, solveBetween_crowded hne hcrowded⟩

end MinCostFlow
