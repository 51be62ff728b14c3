/-
  MinCostFlow.Proofs.Cut.Minimum — after a solve the flow is as great as the capacity of a cut.

  The last search of a solve finds no way to the sink, so the vertices that residual
  capacity leads to make a cut. Nothing is left on the pairs that leave it: all of their
  capacity is used, and none of what they carry comes back.

  Proved: after a solve the cut that residual capacity leads to has the total flow as its
  capacity, where no other cut has less and no flow is greater (`solveBetween_max_flow`).
-/

import MinCostFlow.Proofs.Cut.Capacity
import MinCostFlow.Proofs.Cut.Reachable
import MinCostFlow.Proofs.Flow.Carried

namespace MinCostFlow

variable {n : Nat} {r : IntRange} {g : Network n} {s t u v : Fin n} {side : List (Fin n)}

/-! ## The cut that a solve ends with -/

/-- A search that leaves the sink without a tree leaves no walk to it. -/
theorem no_walk_to_sink (hg : Sound r g) (hst : s ≠ t)
    (hending : ∃ labels, (g.search r s).labels = .ok labels ∧ labels.treeTo t = none) :
    ¬∃ w, Walk g.residual s w t := by
  intro h
  obtain ⟨labels, hl, ht⟩ := hending
  obtain ⟨l, hlt⟩ := (Network.search_labelled hg.residual_nonneg hl).mpr h
  have hroot := (Network.search_grounded hg.residual_nonneg hl).root t l hlt (Labels.treeTo_eq_none.mp ht l hlt)
  exact hst hroot.1.symm

theorem residual_leaving_reachable (hg : Sound r g) (hu : u ∈ g.reachableFrom s) (hv : v ∉ g.reachableFrom s) :
    g.residual u v = 0 := by
  obtain ⟨w, hw⟩ := Network.mem_reachableFrom.mp hu
  have huv : u ≠ v := fun he => hv (he ▸ hu)
  have hclosed : ¬0 < g.residual u v := fun hpos => hv (Network.mem_reachableFrom.mpr ⟨_, hw.snoc ⟨huv, hpos⟩⟩)
  have := hg.residual_nonneg u v
  omega

namespace Carries

variable (h : Carries s t g) (hg : Sound r g) (hst : s ≠ t)

include h hg hst

/-- The cut around what can be reached is full: it is left with all of its capacity, and nothing
comes back into it. -/
theorem reachable_full (ht : t ∉ g.reachableFrom s) : across g.capacity (g.reachableFrom s).toFinset = g.totalFlow := by
  have hs : s ∈ g.reachableFrom s := Network.mem_reachableFrom.mpr ⟨[], .nil⟩
  rw [← h.value hst, (h.isFlow hg).value_eq (List.mem_toFinset.mpr hs) (List.mem_toFinset.not.mpr ht)]
  refine Finset.sum_congr rfl fun u hu => Finset.sum_congr rfl fun v hv => ?_
  rw [Finset.mem_compl, List.mem_toFinset] at hv
  show g.capacity u v = g.flow u v - g.flow v u
  rw [h.flow_sub_flow, Network.sent, residual_leaving_reachable hg (List.mem_toFinset.mp hu) hv, sub_zero]

theorem cutCapacity_reachable (ht : t ∉ g.reachableFrom s) :
    g.cutCapacity r ((g.reachableFrom s).map (·.val)) = .ok (some g.totalFlow) := by
  have hmem : g.totalFlow ∈ r := by
    have := hg.flow_nonneg
    exact IntRange.mem_iff.mpr ⟨by omega, hg.flow_le⟩
  rw [Network.cutCapacity_eq hg.capacity_nonneg (Network.reachableFrom_nodup g s), h.reachable_full hg hst ht,
    IntRange.fit?_eq_some.mpr ⟨hmem, rfl⟩]

/-- No cut has less capacity than what the network carries. -/
theorem totalFlow_le_cutCapacity (hnd : side.Nodup) (hs : s ∈ side) (ht : t ∉ side) :
    g.cutCapacity r (side.map (·.val)) = .ok none ∨
      ∃ c, g.cutCapacity r (side.map (·.val)) = .ok (some c) ∧ g.totalFlow ≤ c := by
  have hle := (h.isFlow hg).value_le (List.mem_toFinset.mpr hs) (List.mem_toFinset.not.mpr ht)
  rw [h.value hst, Int.cast_id] at hle
  rw [Network.cutCapacity_eq hg.capacity_nonneg hnd]
  by_cases hfit : across g.capacity side.toFinset ∈ r
  · rw [IntRange.fit?_eq_some.mpr ⟨hfit, rfl⟩]
    exact Or.inr ⟨_, rfl, hle⟩
  · rw [IntRange.fit?_eq_none.mpr hfit]
    exact Or.inl rfl

end Carries

/-- A solve sends as much as the capacity of the cut around the vertices that residual capacity still
leads to. All cuts have at least that capacity, so no flow is greater. -/
theorem solveBetween_max_flow {R : Type*} [CommRing R] [LinearOrder R] [IsStrictOrderedRing R]
    {result : FlowResult} (hg : Built r g) (h : (g.solveBetween r s t).outcome = .ok result) :
    let final := (g.solveBetween r s t).network
    (∃ cut, final.minimumCut s = .ok cut ∧ s ∈ cut ∧ t ∉ cut ∧ (∀ u ∈ cut, ∀ v ∉ cut, final.residual u v = 0) ∧
      final.cutCapacity r (cut.map (·.val)) = .ok (some result.totalFlow)) ∧
    (∀ side : List (Fin n), side.Nodup → s ∈ side → t ∉ side →
      final.cutCapacity r (side.map (·.val)) = .ok none ∨
        ∃ c, final.cutCapacity r (side.map (·.val)) = .ok (some c) ∧ result.totalFlow ≤ c) ∧
    ∀ f : Fin n → Fin n → R, IsFlow g.capacity s t f → netOut f s ≤ result.totalFlow := by
  obtain ⟨hst, hr, hending, -, hflow⟩ := Network.solveBetween_solved h
  rw [hflow]
  generalize (g.solveBetween r s t).network = final at hr hending ⊢
  have hsound := hr.sound (built_sound hg)
  have hcarries := hr.carries hg
  have hs : s ∈ final.reachableFrom s := Network.mem_reachableFrom.mpr ⟨[], .nil⟩
  have ht : t ∉ final.reachableFrom s := by
    intro hm
    exact no_walk_to_sink hsound hst hending (Network.mem_reachableFrom.mp hm)
  refine ⟨⟨final.reachableFrom s, ?_, hs, ht, ?_, hcarries.cutCapacity_reachable hsound hst ht⟩, ?_, ?_⟩
  · show (Network.vertex n s).map final.reachableFrom = .ok (final.reachableFrom s)
    rw [Network.vertex_eq_ok.mpr rfl]
    rfl
  · intro u hu v hv
    exact residual_leaving_reachable hsound hu hv
  · intro side hnd hs ht
    exact hcarries.totalFlow_le_cutCapacity hsound hst hnd hs ht
  · intro f hf
    have hle := hf.value_le (List.mem_toFinset.mpr hs) (List.mem_toFinset.not.mpr ht)
    rwa [← hr.frame.1, hcarries.reachable_full hsound hst ht] at hle

theorem diamond_max_flow :
    let final := (diamond.solveBetween (.ofBits 32) 0 3).network
    ∃ cut, final.minimumCut 0 = .ok cut ∧ 0 ∈ cut ∧ 3 ∉ cut ∧ (∀ u ∈ cut, ∀ v ∉ cut, final.residual u v = 0) ∧
      final.cutCapacity (.ofBits 32) (cut.map (·.val)) = .ok (some 2) :=
  (solveBetween_max_flow (R := ℚ) (s := 0) (t := 3) diamond_built diamond_solved).1

end MinCostFlow
