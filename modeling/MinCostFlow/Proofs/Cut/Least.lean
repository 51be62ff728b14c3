/-
  MinCostFlow.Proofs.Cut.Least — after a solve the vertices that residual capacity leads to are
  the least minimum cut.

  The total flow and what is left of a cut make up its capacity. So where a cut has no more
  capacity than the total flow, nothing is left of it, and no walk from the source gets out
  of its side (`Carries.reachable_subset`). That says nothing of how the flow was found:
  another solve of the same capacities may take other paths, because of other costs, and
  leave other residual capacities, but it leaves the same side.

  Proved: of the cuts with the total flow as their capacity the one that is reported is
  contained in every other, and it is reported whatever the costs are
  (`minimumCut_least`).
-/

import Mathlib.Order.Bounds.Basic
import MinCostFlow.Proofs.Cut.Minimum
import MinCostFlow.Proofs.Search.Reached

namespace MinCostFlow

variable {n : Nat} {r r' : IntRange} {g g' final final' : Network n} {s t u v : Fin n}
  {side : Finset (Fin n)} {result result' : FlowResult}

/-- The sides of `s` in the cuts between `s` and `t` of this capacity. -/
def cutsOf (m : Matrix n) (s t : Fin n) (value : Int) : Set (Finset (Fin n)) :=
  {side | s ∈ side ∧ t ∉ side ∧ across m side = value}

namespace Carries

variable (h : Carries s t g) (hg : Sound r g) (hst : s ≠ t) (hs : s ∈ side) (ht : t ∉ side)

include h hg hst hs ht

theorem leaving_saturated (hfull : across g.capacity side = g.totalFlow) (hu : u ∈ side) (hv : v ∉ side) :
    g.residual u v = 0 := by
  have hboth := h.totalFlow_add_across hg hst hs ht
  have hle := le_across hg.residual_nonneg hu hv
  have hnonneg := hg.residual_nonneg u v
  omega

theorem reachable_subset (hfull : across g.capacity side = g.totalFlow) : (g.reachableFrom s).toFinset ⊆ side := by
  intro v hv
  obtain ⟨w, hw⟩ := Network.mem_reachableFrom.mp (List.mem_toFinset.mp hv)
  by_contra hout
  obtain ⟨a, ha, hin, hleaves⟩ := exists_leaving (p := (· ∈ side)) hw.leads hs hout
  have hopen := (hw.isOpen a ha).2
  rw [h.leaving_saturated hg hst hs ht hfull hin hleaves] at hopen
  omega

end Carries

/-! ## The cut after a solve -/

theorem Solved.carries (h : Solved r s t g result final) (hg : Built r g) : Sound r final ∧ Carries s t final :=
  ⟨h.rounds.sound (built_sound hg), h.rounds.carries hg⟩

theorem Solved.isLeast (h : Solved r s t g result final) (hg : Built r g) :
    IsLeast (cutsOf g.capacity s t result.totalFlow) (final.reachableFrom s).toFinset := by
  obtain ⟨hsound, hcarries⟩ := h.carries hg
  have ht : t ∉ final.reachableFrom s := by
    intro hm
    exact no_walk_to_sink hsound h.apart h.ending (Network.mem_reachableFrom.mp hm)
  rw [← h.rounds.frame.1, h.flow]
  constructor
  · have hs : s ∈ final.reachableFrom s := Network.mem_reachableFrom.mpr ⟨[], .nil⟩
    exact ⟨List.mem_toFinset.mpr hs, List.mem_toFinset.not.mpr ht, hcarries.reachable_full hsound h.apart ht⟩
  · intro side hside
    obtain ⟨hs, ht, hfull⟩ := hside
    exact hcarries.reachable_subset hsound h.apart hs ht hfull

/-- No solve sends more than the cut of another has as its capacity. -/
theorem Solved.totalFlow_le (h : Solved r s t g result final) (hg : Built r g)
    (h' : Solved r' s t g' result' final') (hg' : Built r' g') (hcap : g'.capacity = g.capacity) :
    result.totalFlow ≤ result'.totalFlow := by
  obtain ⟨hsound, hcarries⟩ := h.carries hg
  obtain ⟨hs, ht, hfull⟩ := (h'.isLeast hg').1
  rw [h.flow, ← hfull, hcap, ← h.rounds.frame.1]
  exact hcarries.totalFlow_le_across hsound h.apart hs ht

theorem Network.reachableFrom_congr (h : (g'.reachableFrom s).toFinset = (g.reachableFrom s).toFinset) :
    g'.reachableFrom s = g.reachableFrom s := by
  refine List.filter_congr fun v _ => ?_
  have hmem : v ∈ g'.reachableFrom s ↔ v ∈ g.reachableFrom s := by
    rw [← List.mem_toFinset, h, List.mem_toFinset]
  simp only [reachableFrom, List.mem_filter, List.mem_finRange, true_and] at hmem
  exact Bool.eq_iff_iff.mpr hmem

/-- The cut that is reported after a solve is contained in every cut with the total flow as its capacity;
and solves of the same capacities report the same total flow and the same cut, whatever the costs. -/
theorem minimumCut_least (hg : Built r g) (h : (g.solveBetween r s t).outcome = .ok result) :
    ∃ cut, (g.solveBetween r s t).network.minimumCut s = .ok cut ∧
      IsLeast (cutsOf g.capacity s t result.totalFlow) cut.toFinset ∧
      ∀ (r' : IntRange) (g' : Network n) (result' : FlowResult), Built r' g' → g'.capacity = g.capacity →
        (g'.solveBetween r' s t).outcome = .ok result' →
        result'.totalFlow = result.totalFlow ∧ (g'.solveBetween r' s t).network.minimumCut s = .ok cut := by
  have hsolved := Network.solveBetween_solved h
  refine ⟨_, Network.minimumCut_eq _ s, hsolved.isLeast hg, ?_⟩
  intro r' g' result' hg' hcap h'
  have hsolved' := Network.solveBetween_solved h'
  have htotal : result'.totalFlow = result.totalFlow :=
    le_antisymm (hsolved'.totalFlow_le hg' hsolved hg hcap.symm) (hsolved.totalFlow_le hg hsolved' hg' hcap)
  refine ⟨htotal, ?_⟩
  have hleast := hsolved'.isLeast hg'
  rw [hcap, htotal] at hleast
  rw [Network.minimumCut_eq, Network.reachableFrom_congr (hleast.unique (hsolved.isLeast hg))]

/-- The paths are others than in the diamond. The cut `{0, 1, 2}` has the same capacity, but is not the
one that is reported. -/
theorem dearDiamond_cut : (dearDiamond.solveBetween (.ofBits 32) 0 3).outcome =
      .ok ⟨2, 9, [⟨[0, 2, 3], 1, 4⟩, ⟨[0, 1, 3], 1, 5⟩]⟩ ∧
    (dearDiamond.solveBetween (.ofBits 32) 0 3).network.minimumCut 0 = .ok [0] ∧
    IsLeast (cutsOf diamond.capacity 0 3 2) {0} ∧ {0, 1, 2} ∈ cutsOf diamond.capacity 0 3 2 := by
  have hdear : (dearDiamond.solveBetween (.ofBits 32) 0 3).outcome =
      .ok ⟨2, 9, [⟨[0, 2, 3], 1, 4⟩, ⟨[0, 1, 3], 1, 5⟩]⟩ := by
    decide +kernel
  have hcut : (diamond.solveBetween (.ofBits 32) 0 3).network.minimumCut 0 = .ok [0] := by decide +kernel
  obtain ⟨cut, hreported, hleast, hother⟩ := minimumCut_least (s := 0) (t := 3) diamond_built diamond_solved
  obtain rfl := Except.ok.inj (hcut.symm.trans hreported)
  have hwide : {0, 1, 2} ∈ cutsOf diamond.capacity 0 3 2 := ⟨by decide, by decide, by decide +kernel⟩
  exact ⟨hdear, (hother _ _ _ dearDiamond_built (by decide +kernel) hdear).2, hleast, hwide⟩

end MinCostFlow
