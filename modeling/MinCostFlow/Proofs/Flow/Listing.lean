/-
  MinCostFlow.Proofs.Flow.Listing — the arcs that a network lists, and what it says they cost.

  The listing goes over the pairs that have a capacity. Where nothing is negative no flow
  is missed by that: more than nothing has been sent only where some capacity is gone. And
  where capacities and residual capacities are in range, so is what a pair has lost.

  Proved: the listing of a sound network is given, and is of the pairs on which something
  was sent (`arcFlows_eq`), in order (`listed_sorted`). Where what was sent one way is
  missing the other way, the cost that the network gives is exact: it is that of its flow
  over all pairs of different vertices (`flowCost_exact`).
-/

import MinCostFlow.Proofs.Flow.Carried
import MinCostFlow.Proofs.PartialSums

namespace MinCostFlow

variable {n : Nat} {r : IntRange} {g : Network n} {s t : Fin n} {c : Int}

/-- By tail and then by head. -/
def ArcFlow.Before (x y : ArcFlow) : Prop := x.tail < y.tail ∨ x.tail = y.tail ∧ x.head < y.head

namespace Network

/-- The pairs on which something was sent, by tail and then by head. -/
def sentPairs (g : Network n) : List (Fin n × Fin n) := Matrix.pairsWhere n fun u v => 0 < g.sent u v

theorem mem_sentPairs {u v : Fin n} : (u, v) ∈ g.sentPairs ↔ 0 < g.sent u v := by simp [sentPairs]

theorem sentPairs_nodup (g : Network n) : g.sentPairs.Nodup := by
  refine (Matrix.pairsWhere_sorted _).imp ?_
  rintro x _ h rfl
  omega

/-- How a pair is listed. -/
def listed (g : Network n) (p : Fin n × Fin n) : ArcFlow := ⟨p.1, p.2, g.sent p.1 p.2, g.cost p.1 p.2⟩

theorem listed_sorted (g : Network n) : (g.sentPairs.map g.listed).Pairwise ArcFlow.Before := by
  refine (Matrix.pairsWhere_sorted _).map _ ?_
  intro p q hpq
  rcases hpq with htail | ⟨htail, hhead⟩
  · exact Or.inl htail
  · exact Or.inr ⟨congrArg Fin.val htail, hhead⟩

theorem arcFlow_eq (hg : Sound r g) (u v : Fin n) : arcFlow r g u v = .ok (g.listed (u, v)) := by
  have hcap := hg.capacity_nonneg u v
  have hcap' := hg.capacity_le u v
  have hres := hg.residual_nonneg u v
  have hres' := hg.residual_le u v
  have hmem : g.sent u v ∈ r := by
    rw [IntRange.mem_iff, sent]
    omega
  exact bind_eq_ok.mpr ⟨_, IntRange.require_eq_ok.mpr ⟨hmem, rfl⟩, rfl⟩

/-- A pair without a capacity has none to lose, so nothing that was sent is left out. -/
theorem filter_sent (hg : Sound r g) :
    (Matrix.pairsWhere n fun u v => g.capacity u v != 0).filter (fun p => 0 < g.sent p.1 p.2) = g.sentPairs := by
  rw [Matrix.filter_pairsWhere, sentPairs]
  congr 1
  funext u v
  have hres := hg.residual_nonneg u v
  by_cases hpos : 0 < g.sent u v
  · have hcap : g.capacity u v ≠ 0 := by
      intro hzero
      rw [sent, hzero] at hpos
      omega
    simp [hpos, hcap]
  · simp [hpos]

theorem arcFlows_eq (hg : Sound r g) : g.arcFlows r = .ok (g.sentPairs.map g.listed) := by
  let arcs := Matrix.pairsWhere n fun u v => g.capacity u v != 0
  have hall : (arcs.mapM fun p => arcFlow r g p.1 p.2) = .ok (arcs.map g.listed) := by
    simp only [arcFlow_eq hg]
    exact List.mapM_pure
  refine bind_eq_ok.mpr ⟨_, hall, ?_⟩
  rw [List.filter_map, ← filter_sent hg]
  rfl

theorem addCost_eq_some (total : Int) (x : ArcFlow) (y : Int) : addCost r total x = some y ↔
    x.flow * x.cost ∈ r ∧ total + x.flow * x.cost ∈ r ∧ y = total + x.flow * x.cost := by
  simp only [addCost, Option.bind_eq_bind, Option.bind_eq_some_iff, IntRange.fit?_eq_some]
  constructor
  · rintro ⟨_, ⟨hproduct, rfl⟩, hsum, rfl⟩
    exact ⟨hproduct, hsum, rfl⟩
  · rintro ⟨hproduct, hsum, rfl⟩
    exact ⟨_, ⟨hproduct, rfl⟩, hsum, rfl⟩

/-- On a loop nothing is sent. -/
theorem sentPairs_subset (hskew : ∀ u v, g.sent v u = -g.sent u v) :
    g.sentPairs.toFinset ⊆ Finset.univ.offDiag := by
  intro p hp
  have hpos := mem_sentPairs.mp (List.mem_toFinset.mp hp)
  have hback := hskew p.1 p.2
  refine Finset.mem_offDiag.mpr ⟨Finset.mem_univ _, Finset.mem_univ _, ?_⟩
  intro he
  rw [he] at hback hpos
  omega

/-- A sum over the arcs that are listed. -/
theorem sum_listed (g : Network n) (f : ArcFlow → Int) :
    ((g.sentPairs.map g.listed).map f).sum = ∑ p ∈ g.sentPairs.toFinset, f (g.listed p) := by
  rw [List.map_map, ← List.sum_toFinset _ (sentPairs_nodup g)]
  rfl

theorem flowCost_eq (hg : Sound r g) : g.flowCost r = .ok ((g.sentPairs.map g.listed).foldlM (addCost r) 0) := by
  unfold flowCost
  rw [arcFlows_eq hg]
  rfl

/-- Asking for the cost ends without a fault, be there an answer or not. -/
theorem flowCost_returns (hg : Sound r g) : ∃ total, g.flowCost r = .ok total := ⟨_, flowCost_eq hg⟩

theorem flowCost_exact (hg : Sound r g) (hskew : ∀ u v, g.sent v u = -g.sent u v)
    (hc : g.flowCost r = .ok (some c)) : c = costOfFlow g.cost g.flow := by
  have hfold := Except.ok.inj ((flowCost_eq hg).symm.trans hc)
  obtain ⟨-, -, hsum⟩ := (foldlM_eq_some_iff addCost_eq_some r.zero_mem).mp hfold
  rw [zero_add, sum_listed] at hsum
  rw [hsum, costOfFlow]
  refine Finset.sum_subset_zero_on_sdiff (sentPairs_subset hskew) (fun p hp => ?_) (fun p hp => ?_)
  · have hnot : ¬0 < g.sent p.1 p.2 := fun hpos =>
      (Finset.mem_sdiff.mp hp).2 (List.mem_toFinset.mpr (mem_sentPairs.mpr hpos))
    show max 0 (g.sent p.1 p.2) * g.cost p.1 p.2 = 0
    rw [max_eq_left (not_lt.mp hnot), zero_mul]
  · have hpos := mem_sentPairs.mp (List.mem_toFinset.mp hp)
    show g.sent p.1 p.2 * g.cost p.1 p.2 = max 0 (g.sent p.1 p.2) * g.cost p.1 p.2
    rw [max_eq_right hpos.le]

end Network

theorem Carries.flowCost_exact (h : Carries s t g) (hg : Sound r g) (hc : g.flowCost r = .ok (some c)) :
    c = costOfFlow g.cost g.flow :=
  Network.flowCost_exact hg h.skew hc

end MinCostFlow
