/-
  MinCostFlow.Proofs.Search.Cheapest — what a search answers is what a cheapest walk costs.

  A pass relaxes in place, so during a search the labels mix walks of different lengths, and
  a label says no more than that some walk from the source costs so much. At the end the
  labels are settled, unless a cycle of negative cost can be reached: then no walk gets to
  its end for less than the label there. Both together make a label the least cost of the
  walks to its vertex, of whatever length (`Settled.isLeast`).

  Proved, of every network that callers can come to: a tree says that the sink can be reached
  and what a cheapest walk there costs, and without a tree there is no walk
  (`cheapestPath_exact`). Cycles that the source does not reach have no part in it
  (`haunted_exact`).
-/

import Mathlib.Order.Bounds.Basic
import MinCostFlow.Proofs.Search.Reached
import MinCostFlow.Proofs.Unreached.Solve

namespace MinCostFlow

variable {n : Nat} {r : IntRange} {g : Network n} {s t u v : Fin n} {w : List (Fin n × Fin n)}
  {labels : Labels n} {l : Label n} {answer : Option PredecessorTree}

/-! ## Walks of a search -/

/-- A walk along arcs that a search may use, which lead from one vertex to another and have a residual
capacity that is not zero. -/
def SearchWalk (g : Network n) (u : Fin n) (w : List (Fin n × Fin n)) (v : Fin n) : Prop :=
  Leads u w v ∧ ∀ a ∈ w, a ∈ g.residualArcs

/-- No search from `s` can come to a cycle of negative cost. -/
def SafeFrom (g : Network n) (s : Fin n) : Prop :=
  ∀ v y c, SearchWalk g s y v → SearchWalk g v c v → Simple c → 0 ≤ costOf g.cost c

theorem searchWalk_iff (hg : Sound r g) : SearchWalk g u w v ↔ Walk g.residual u w v := by
  simp only [SearchWalk, Network.mem_residualArcs hg.residual_nonneg]
  constructor
  · intro h
    exact ⟨h.1, h.2⟩
  · intro h
    exact ⟨h.leads, h.isOpen⟩

theorem safeFrom_iff (hg : Sound r g) : SafeFrom g s ↔ NoNegativeCycleFrom g.residual g.cost s := by
  simp only [SafeFrom, NoNegativeCycleFrom, searchWalk_iff hg]

/-! ## Settled labels -/

theorem Settled.isLeast (h : Settled g s labels) (hl : labels.label v = some l) :
    IsLeast {c | ∃ w, Walk g.residual s w v ∧ costOf g.cost w = c} l.cost := by
  constructor
  · exact h.walk v l hl
  · rintro c ⟨w, hw, rfl⟩
    have hle := (h.settled.walk hw h.source).le hl
    omega

/-- Where no cycle of negative cost can be reached, the label of the sink is the least cost of all walks to
it, and a sink that no walk leads to has no tree. -/
theorem cheapestPath_exact (hg : Reach r g) (hst : s ≠ t) (hk : SafeFrom g s)
    (h : g.cheapestPath r s t = .ok answer) :
    (∀ tree, answer = some tree → (∃ found, g.reachable s = .ok found ∧ t ∈ found) ∧
      IsLeast {c | ∃ w, SearchWalk g s w t ∧ costOf g.cost w = c} tree.sinkCost) ∧
    (answer = none → ¬∃ w, SearchWalk g s w t) := by
  have hsound := reach_sound hg
  rw [Network.cheapestPath_eq] at h
  obtain ⟨labels, hl, rfl⟩ := Search.treeTo_eq_ok.mp h
  have hlabelled := Network.search_labelled (v := t) hsound.residual_nonneg hl
  simp only [searchWalk_iff hsound]
  constructor
  · intro tree htree
    obtain ⟨c, u, hlt, rfl⟩ := Labels.treeTo_eq_some.mp htree
    have hsettled := Network.search_settled hsound.residual_nonneg hl ((safeFrom_iff hsound).mp hk)
    have hfound : t ∈ g.reachableFrom s := Network.mem_reachableFrom.mpr (hlabelled.mp ⟨_, hlt⟩)
    exact ⟨⟨_, g.minimumCut_eq s, hfound⟩, hsettled.isLeast hlt⟩
  · intro hnone
    rw [← hlabelled]
    rintro ⟨l, hlt⟩
    -- a label without a parent is that of the source
    have hroot := Labels.treeTo_eq_none.mp hnone l hlt
    exact hst ((Network.search_grounded hsound.residual_nonneg hl).root t l hlt hroot).1.symm

/-! ## A cycle out of reach -/

theorem haunted_safe : SafeFrom haunted 0 := by
  have hclosed : ∀ u v, u ∈ ({0, 1, 2, 3} : Finset (Fin 7)) → Open haunted.residual u v →
      v ∈ ({0, 1, 2, 3} : Finset (Fin 7)) := by
    decide +kernel
  have hclimb : ∀ u v, u ∈ ({0, 1, 2, 3} : Finset (Fin 7)) → Open haunted.residual u v →
      ![0, 1, 2, 3, 0, 0, 0] v ≤ (![0, 1, 2, 3, 0, 0, 0] u : Int) + haunted.cost u v := by
    decide +kernel
  exact (safeFrom_iff (built_sound haunted_built)).mpr (noNegativeCycleFrom_of_potential (by decide) hclosed hclimb)

theorem haunted_exact : haunted.cheapestPath (.ofBits 8) 0 3 =
      .ok (some ⟨#[none, some 0, some 1, some 2, none, none, none], 3⟩) ∧
    IsLeast {c | ∃ w, SearchWalk haunted 0 w 3 ∧ costOf haunted.cost w = c} 3 := by
  have hfound : haunted.cheapestPath (.ofBits 8) 0 3 =
      .ok (some ⟨#[none, some 0, some 1, some 2, none, none, none], 3⟩) := by
    decide +kernel
  obtain ⟨htree, -⟩ := cheapestPath_exact (s := 0) (t := 3) (.built haunted_built) (by decide) haunted_safe hfound
  exact ⟨hfound, (htree _ rfl).2⟩

end MinCostFlow
