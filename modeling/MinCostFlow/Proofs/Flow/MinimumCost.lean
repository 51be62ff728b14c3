/-
  MinCostFlow.Proofs.Flow.MinimumCost — a solve sends its flow as cheaply as possible.

  Where the residual capacities allow no cycle of negative cost there are potentials for
  the vertices, and with them every residual arc has a reduced cost that is not negative.
  So a pair with a positive reduced cost has nothing to take back on it: whatever another
  flow sends there net, it sends at least as much (`Carries.sent_le_of_reduced_pos`). As
  potentials cancel out between flows of one value, no such flow costs less
  (`Carries.costOfFlow_le`).

  Proved: a solve in a network without cycles of negative cost leaves a flow of the total
  flow as its value, which costs what the solve says and the least of all such flows
  (`solveBetween_min_cost`).
-/

import MinCostFlow.Proofs.Flow.Listing
import MinCostFlow.Proofs.Solve.Cycles

namespace MinCostFlow

variable {n : Nat} {r : IntRange} {g : Network n} {s t u v : Fin n}
  {R : Type*} [CommRing R] [LinearOrder R] [IsStrictOrderedRing R] {f : Fin n → Fin n → R}
  {p : Fin n → Int}

/-- A pair of positive reduced cost takes back all that it can, so no flow sends less on it net. -/
theorem Carries.sent_le_of_reduced_pos (h : Carries s t g) (hg : Sound r g) (hf : IsFlow g.capacity s t f) (huv : u ≠ v)
    (hp : ∀ u v, Open g.residual u v → p v ≤ p u + g.cost u v) (hc : p v < p u + g.cost u v) :
    (g.sent u v : R) ≤ f u v - f v u := by
  have hclosed : ¬Open g.residual v u := by
    intro ho
    have := hp v u ho
    have := hg.cost_skew u v huv
    omega
  have hzero : g.residual v u = 0 := by
    have := hg.residual_nonneg v u
    have : ¬0 < g.residual v u := fun hpos => hclosed ⟨huv.symm, hpos⟩
    omega
  have hsent : g.sent u v = -g.capacity v u := by rw [h.skew v u, Network.sent, hzero, sub_zero]
  have hnonneg := hf.nonneg u v huv
  have hcap := hf.le_capacity v u huv.symm
  rw [hsent, Int.cast_neg]
  linarith

/-- Nothing that can be sent instead is cheaper. -/
theorem Carries.costOfFlow_le (h : Carries s t g) (hg : Sound r g) (hst : s ≠ t)
    (hk : NoNegativeCycle g.residual g.cost) (hf : IsFlow g.capacity s t f) (hvalue : netOut f s = g.totalFlow) :
    (costOfFlow g.cost g.flow : Int) ≤ costOfFlow g.cost f := by
  obtain ⟨p, hp⟩ := noNegativeCycle_iff_potential.mp hk
  rw [← costOfFlow_cast]
  refine costOfFlow_le_of_reduced (p := fun v => p v) hg.cost_skew ?_ ?_
  · apply hf.netOut_eq_of_value hst (h.isFlow hg).cast
    rw [hvalue, netOut_cast, h.value hst]
  intro u v huv
  rw [← Int.cast_sub (g.flow u v), h.flow_sub_flow]
  have hback := hg.cost_skew u v huv
  rcases lt_trichotomy (p v) (p u + g.cost u v) with hlt | heq | hgt
  · have hle := h.sent_le_of_reduced_pos hg hf huv hp hlt
    have hc : (0 : R) ≤ g.cost u v + (p u - p v) := by exact_mod_cast (by omega : 0 ≤ g.cost u v + (p u - p v))
    exact mul_nonneg (by linarith) hc
  · have hc : (g.cost u v + (p u - p v) : R) = 0 := by exact_mod_cast (by omega : g.cost u v + (p u - p v) = 0)
    rw [hc, mul_zero]
  · -- the same the other way round
    have hle := h.sent_le_of_reduced_pos hg hf (Ne.symm huv) hp (by omega)
    rw [h.skew u v, Int.cast_neg] at hle
    have hc : (g.cost u v + (p u - p v) : R) ≤ 0 := by exact_mod_cast (by omega : g.cost u v + (p u - p v) ≤ 0)
    exact mul_nonneg_of_nonpos_of_nonpos (by linarith) hc

/-- Where the arcs of a network make no cycle of negative cost, a solve leaves a flow that is as great
as it says, costs what it says, and is the cheapest of its value. -/
theorem solveBetween_min_cost {result : FlowResult} (hg : Built r g) (hk : NoNegativeCycle g.capacity g.cost)
    (h : (g.solveBetween r s t).outcome = .ok result) :
    let final := (g.solveBetween r s t).network
    IsFlow g.capacity s t final.flow ∧ netOut final.flow s = result.totalFlow ∧
      result.totalCost = costOfFlow g.cost final.flow ∧
      ∀ f : Fin n → Fin n → R, IsFlow g.capacity s t f → netOut f s = result.totalFlow →
        result.totalCost ≤ costOfFlow g.cost f := by
  obtain ⟨hst, hr, -, hcost, hflow⟩ := Network.solveBetween_solved h
  rw [hflow]
  generalize (g.solveBetween r s t).network = final at hr hcost ⊢
  have hsound := hr.sound (built_sound hg)
  have hcarries := hr.carries hg
  rw [← (built_fresh hg).1] at hk
  have hkfinal := hr.noNegativeCycle (built_sound hg) hk
  have hexact := hcarries.flowCost_exact hsound hcost
  rw [← hr.frame.1, ← hr.frame.2]
  refine ⟨hcarries.isFlow hsound, hcarries.value hst, hexact, ?_⟩
  intro f hf hvalue
  rw [hexact]
  exact hcarries.costOfFlow_le hsound hst hkfinal hf hvalue

theorem diamond_min_cost :
    let final := (diamond.solveBetween (.ofBits 32) 0 3).network
    IsFlow diamond.capacity 0 3 final.flow ∧ netOut final.flow 0 = 2 ∧ 9 = costOfFlow diamond.cost final.flow ∧
      ∀ f : Fin 4 → Fin 4 → ℚ, IsFlow diamond.capacity 0 3 f → netOut f 0 = (2 : Int) →
        (9 : Int) ≤ costOfFlow diamond.cost f :=
  solveBetween_min_cost (s := 0) (t := 3) diamond_built diamond_noNegativeCycle diamond_solved

end MinCostFlow
