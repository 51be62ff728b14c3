/-
  MinCostFlow.Proofs.Solve.CheapestFirst — each round of a solve costs at least as much
  as the one before it.

  A round takes a path that costs what the label of the sink says. These labels are still
  settled in the network after the round (`Certified`), so no walk to the sink that is left
  there costs less, and the next round takes such a walk.
-/

import MinCostFlow.Proofs.Solve.Cycles

namespace MinCostFlow

variable {n : Nat} {r : IntRange} {g g' g1 : Network n} {s t : Fin n} {a b : Augmentation}
  {as : List Augmentation} {labels : Labels n} {w : List (Fin n × Fin n)} {source sink : Nat}

/-- No walk that is left after a round costs less than the path of the round. -/
theorem Certified.cost_le (h : Certified g g' s t a labels) (hw : Walk g'.residual s w t) :
    a.cost ≤ costOf g'.cost w := by
  obtain ⟨l, hl, hcost⟩ := h.sink
  have := (h.settled.walk hw h.source).le hl
  omega

theorem Advances.cost_le_next (h : Advances r s t g a g1) (h' : Advances r s t g1 b g') (hg : Sound r g)
    (hk : NoNegativeCycleFrom g.residual g.cost s) : a.cost ≤ b.cost := by
  obtain ⟨labels, hc⟩ := h.certified hg hk
  obtain ⟨_, arcs, _, hp, _⟩ := h'.pushed
  rw [hp.cost]
  exact hc.cost_le hp.walk

theorem Rounds.costs_sorted (h : Rounds r s t g as g') (hg : Sound r g)
    (hk : NoNegativeCycle g.residual g.cost) : (as.map (·.cost)).Pairwise (· ≤ ·) := by
  induction h with
  | none => exact List.Pairwise.nil
  | cons h hs ih =>
    have hsorted := ih (h.sound hg) (h.noNegativeCycle hg hk)
    cases hs with
    | none => exact List.pairwise_singleton ..
    | cons h' hs =>
      have hle := h.cost_le_next h' hg (hk.from s)
      refine List.pairwise_cons.mpr ⟨?_, hsorted⟩
      intro c hc
      rcases List.mem_cons.mp hc with rfl | hc
      · exact hle
      · exact hle.trans (List.rel_of_pairwise_cons hsorted hc)

/-- Also in a network that carries flow, a solve sends the cheapest flow first. -/
theorem solveBetween_cheapest_first {result : FlowResult} (hg : Reach r g)
    (hk : NoNegativeCycle g.residual g.cost) (h : (g.solveBetween r source sink).outcome = .ok result) :
    (result.augmentations.map (·.cost)).Pairwise (· ≤ ·) := by
  obtain ⟨s, t, -, -, hsolved⟩ := Network.solveBetween_eq_ok h
  exact hsolved.rounds.costs_sorted (reach_sound hg) hk

theorem diamond_cheapest_first : ∃ result, (diamond.solveBetween (.ofBits 32) 0 3).outcome = .ok result ∧
    result.augmentations.map (·.cost) = [3, 6] ∧ (result.augmentations.map (·.cost)).Pairwise (· ≤ ·) :=
  ⟨_, diamond_solved, rfl, solveBetween_cheapest_first (.built diamond_built) diamond_noNegativeCycle diamond_solved⟩

end MinCostFlow
