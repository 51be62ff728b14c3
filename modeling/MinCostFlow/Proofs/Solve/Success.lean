/-
  MinCostFlow.Proofs.Solve.Success — when a solve cannot fail.

  Five sums are checked in a solve, and each is bounded by something that can be read off a
  network before it is solved (`Moderate`). A label costs no more than the dearest arc does
  once for each vertex, and nor does any part of a path. The total flow cannot outgrow a
  cut: an augmentation sends its bottleneck out of the side of the source, over an arc that
  still has that much left. A pair never has more than the capacities of the pair and its
  opposite together. And each arc is billed for its capacity at most.

  Without a cycle of negative cost the way back from the sink does not run into a cycle
  either. Rounds change neither capacities nor costs, and create no such cycle, so all of
  that is still true in the round with which a solve ends.

  The improvements of a pass are counted as well, and nothing of that bounds how many there are.
  It takes many vertices for a pass to make too many (`Crowded.vertices`).

  Proved: a solve of such a network, as it was built, succeeds unless its last search is crowded,
  and always if there are less than 46342 vertices (`solveBetween_succeeds`).
-/

import Mathlib.Algebra.Order.BigOperators.Ring.Finset
import MinCostFlow.Proofs.Search.Bounds
import MinCostFlow.Proofs.Search.Cascade
import MinCostFlow.Proofs.Solve.BrokenTree
import MinCostFlow.Proofs.Solve.Cycles

namespace MinCostFlow

variable {n : Nat} {r : IntRange} {g g' : Network n} {s t u v : Fin n} {arcs : List (Fin n × Fin n)}
  {as : List Augmentation} {b : Int} {e : Failure SolveError}

/-- Nothing that a solve from `s` to `t` adds up can leave the range. -/
structure Moderate (r : IntRange) (g : Network n) (s t : Fin n) : Prop where
  /-- For labels, and for the costs of paths. -/
  cost : ∀ u v, u ≠ v → n * |g.cost u v| ≤ r.top
  /-- For residual capacities. -/
  pair : ∀ u v, u ≠ v → g.capacity u v + g.capacity v u ≤ r.top
  /-- For the total flow. -/
  cut : ∃ side : Finset (Fin n), s ∈ side ∧ t ∉ side ∧ across g.capacity side ≤ r.top
  /-- For the cost of the flow. -/
  bill : ∑ p ∈ Finset.univ.offDiag, g.capacity p.1 p.2 * |g.cost p.1 p.2| ≤ r.top

theorem Moderate.rounds (hm : Moderate r g s t) (h : Rounds r s t g as g') : Moderate r g' s t := by
  obtain ⟨hcap, hcost⟩ := h.frame
  refine ⟨?_, ?_, ?_, ?_⟩
  · rw [hcost]
    exact hm.cost
  · rw [hcap]
    exact hm.pair
  · rw [hcap]
    exact hm.cut
  · rw [hcap, hcost]
    exact hm.bill

namespace Moderate

variable (hm : Moderate r g s t)

include hm

theorem exists_bound : ∃ b : Int, 0 ≤ b ∧ (∀ u v, u ≠ v → |g.cost u v| ≤ b) ∧ n * b ≤ r.top := by
  have hn : (0 : Int) < n := by exact_mod_cast s.pos
  refine ⟨r.top / n, Int.ediv_nonneg (Int.natCast_nonneg _) hn.le, fun u v huv => ?_, Int.mul_ediv_self_le hn.ne'⟩
  rw [Int.le_ediv_iff_mul_le hn, mul_comm]
  exact hm.cost u v huv

theorem search_fits (hg : Sound r g) (hk : NoNegativeCycle g.residual g.cost) {d : SolveError} :
    (g.search r s).labels ≠ .error (.error d) := by
  obtain ⟨b, -, hb, hfit⟩ := hm.exists_bound
  exact Network.search_fits (fun u v ho => hb u v ho.1) hfit (hk.from s) hg.residual_nonneg

theorem unitCost_fits (hp : Passable g s t arcs b) : ∃ c, g.unitCost? r arcs = some c := by
  obtain ⟨k, hk0, hk, hfit⟩ := hm.exists_bound
  have hsum := hp.simple.sum_abs_le hk0 fun a ha => hk a.1 a.2 (hp.le_residual a ha).1
  have hstep := fit?_step_iff (r := r) fun a : Fin n × Fin n => g.cost a.1 a.2
  refine foldlM_of_abs_le hstep (fun _ _ => trivial) ?_
  rw [abs_zero, zero_add]
  exact hsum.trans hfit

/-- The path leaves the side of the source, where what is sent was still left to the cut. -/
theorem totalFlow_fits (hg : Sound r g) (hc : Carries s t g) (hst : s ≠ t) (hp : Passable g s t arcs b) :
    g.totalFlow + b ∈ r := by
  obtain ⟨side, hs, ht, hcut⟩ := hm.cut
  obtain ⟨a, ha, hin, hout⟩ := exists_leaving (p := (· ∈ side)) hp.leads hs ht
  have hleft : b ≤ g.residual a.1 a.2 := (hp.le_residual a ha).2
  have hacross : g.residual a.1 a.2 ≤ across g.residual side := le_across hg.residual_nonneg hin hout
  have htotal := hc.totalFlow_add_across hg hst hs ht
  have hflow := hg.flow_nonneg
  have hpos := hp.pos
  exact IntRange.mem_iff.mpr ⟨by omega, by omega⟩

theorem reverse_fits (hg : Sound r g) (hc : Carries s t g) (hp : Passable g s t arcs b) (ha : (u, v) ∈ arcs) :
    g.residual v u + b ∈ r := by
  obtain ⟨huv, hleft⟩ : u ≠ v ∧ b ≤ g.residual u v := hp.le_residual (u, v) ha
  have hpair := hm.pair u v huv
  have hboth := hc.residual_add_residual u v
  have hback := hg.residual_nonneg v u
  have hpos := hp.pos
  exact IntRange.mem_iff.mpr ⟨by omega, by omega⟩

theorem flowCost_fits (hg : Sound r g) (hc : Carries s t g) : ∃ c, g.flowCost r = .ok (some c) := by
  have hbill : ((g.sentPairs.map g.listed).map fun x => |x.flow * x.cost|).sum ≤ r.top := by
    rw [Network.sum_listed]
    calc ∑ p ∈ g.sentPairs.toFinset, |g.sent p.1 p.2 * g.cost p.1 p.2|
        ≤ ∑ p ∈ g.sentPairs.toFinset, g.capacity p.1 p.2 * |g.cost p.1 p.2| := by
          refine Finset.sum_le_sum fun p hp => ?_
          have hpos := Network.mem_sentPairs.mp (List.mem_toFinset.mp hp)
          have hle : g.sent p.1 p.2 ≤ g.capacity p.1 p.2 := by
            have := hg.residual_nonneg p.1 p.2
            rw [Network.sent]
            omega
          rw [abs_mul, abs_of_pos hpos]
          exact mul_le_mul_of_nonneg_right hle (abs_nonneg _)
      _ ≤ ∑ p ∈ Finset.univ.offDiag, g.capacity p.1 p.2 * |g.cost p.1 p.2| := by
          refine Finset.sum_le_sum_of_subset_of_nonneg (Network.sentPairs_subset hc.skew) fun p _ _ => ?_
          exact mul_nonneg (hg.capacity_nonneg p.1 p.2) (abs_nonneg _)
      _ ≤ r.top := hm.bill
  obtain ⟨c, hfold⟩ := foldlM_of_abs_le (b := 0) Network.addCost_eq_some (fun _ hx => hx) (by rwa [abs_zero, zero_add])
  exact ⟨c, by rw [Network.flowCost_eq hg, hfold]⟩

theorem round_goes_on (hg : Sound r g) (hc : Carries s t g) (hk : NoNegativeCycle g.residual g.cost) (hst : s ≠ t)
    (hcount : ¬g.Crowded r s) : ¬RoundEnds r g s t (.error e) := by
  intro h
  generalize hx : Except.error e = x at h
  cases h with
  | costLabel hover => exact hm.search_fits hg hk hover
  | crowded hcrowded => exact hcount hcrowded
  | unreached => cases hx
  | cycle hl hv => exact RoundEnds.not_broken hk hg (RoundEnds.cycle (t := t) hl hv)
  | attempt hp ha =>
    cases ha with
    | pathCost hnone =>
      obtain ⟨c, hcost⟩ := hm.unitCost_fits hp
      cases hnone.symm.trans hcost
    | totalFlow hout => exact hout (hm.totalFlow_fits hg hc hst hp)
    | reverseResidual ha hout => exact hout (hm.reverse_fits hg hc hp ha)
    | sent => cases hx

end Moderate

/-- Without a cycle of negative cost, and where nothing that is added up can leave the range, a solve of
a network as it was built gives an answer, unless its last search has too many improvements to count. -/
theorem solveBetween_succeeds (hg : Built r g) (hk : NoNegativeCycle g.capacity g.cost) (hst : s ≠ t)
    (hm : Moderate r g s t) :
    let x := g.solveBetween r s t
    (¬x.network.Crowded r s → ∃ result, x.outcome = .ok result) ∧
    (x.network.Crowded r s → x.outcome = .error (.fault .counterOverflow)) ∧
    (n < 46342 → ∃ result, x.outcome = .ok result) := by
  have hgoes : ¬(g.solveBetween r s t).network.Crowded r s → ∃ result, (g.solveBetween r s t).outcome = .ok result := by
    intro hcount
    have hrounds := Network.exhaust_rounds r g s t
    have hsound := hrounds.sound (built_sound hg)
    have hcarries := hrounds.carries hg
    have hmoderate := hm.rounds hrounds
    rw [← (built_fresh hg).1] at hk
    have hkfinal := hrounds.noNegativeCycle (built_sound hg) hk
    rw [Network.solveBetween_eq r g hst] at hcount ⊢
    cases hx : (g.exhaust r s t).result r with
    | ok result => exact ⟨result, rfl⟩
    | error e =>
      rcases exhaust_result_eq_error (built_sound hg) hst hx with hend | ⟨hnone, -⟩
      · exact absurd hend (hmoderate.round_goes_on hsound hcarries hkfinal hst hcount)
      · obtain ⟨c, hcost⟩ := hmoderate.flowCost_fits hsound hcarries
        cases hnone.symm.trans hcost
  refine ⟨hgoes, fun hc => ?_, fun hn => hgoes fun hc => ?_⟩
  · exact (solveBetween_fault_iff (built_sound hg) s t).mpr ⟨rfl, s, t, rfl, rfl, hst, hc⟩
  · have hvertices := hc.vertices
    omega

/-- In 8 bits there is no room for one more unit of capacity from `0`, or of a cost that is not zero. -/
def brimful : Network 3 := ((((Network.empty 3).setArc 1 0 1 (-42)).setArc 0 1 2 42).setArc 1 2 3 0).setArc 0 2 125 0

theorem brimful_built : Built (.ofBits 8) brimful :=
  (built_empty (by decide)).setArcs [(1, 0, 1, -42), (0, 1, 2, 42), (1, 2, 3, 0), (0, 2, 125, 0)] (by decide)

theorem brimful_noNegativeCycle : NoNegativeCycle brimful.capacity brimful.cost :=
  noNegativeCycle_iff_potential.mpr ⟨![0, 42, 0], by decide⟩

theorem brimful_moderate : Moderate (.ofBits 8) brimful 0 2 :=
  ⟨by decide +kernel, by decide +kernel, ⟨{0}, by decide +kernel⟩, by decide +kernel⟩

theorem brimful_succeeds : ∃ result, (brimful.solveBetween (.ofBits 8) 0 2).outcome = .ok result :=
  (solveBetween_succeeds (s := 0) (t := 2) brimful_built brimful_noNegativeCycle (by decide) brimful_moderate).2.2
    (by decide)

/-- The total flow is the top of the range. -/
example : (brimful.solveBetween (.ofBits 8) 0 2).outcome =
    .ok ⟨127, 84, [⟨[0, 2], 125, 0⟩, ⟨[0, 1, 2], 2, 42⟩]⟩ := by
  decide +kernel

/-- Nothing that is added up outgrows the number of pairs. -/
theorem cascade_moderate (hn : n * n < indexLimit) (hr : (n * n : Int) ≤ r.top) (hst : s ≠ t) :
    Moderate r (cascade n) s t := by
  have hpos : (1 : Int) ≤ n := by exact_mod_cast s.pos
  have hle : (n : Int) ≤ n * n := le_mul_of_one_le_left (by omega) hpos
  have hcap : ∀ u v, (cascade n).capacity u v ≤ 1 := by
    intro u v
    rw [cascade_capacity]
    split <;> decide
  refine ⟨fun u v huv => ?_, fun u v huv => ?_, ⟨{s}, by simp, by simpa using hst.symm, ?_⟩, ?_⟩
  · rw [cascade_abs_cost hn huv]
    omega
  · rw [cascade_capacity, cascade_capacity]
    rcases lt_or_gt_of_ne huv with h | h
    · rw [if_pos h, if_neg h.asymm]
      omega
    · rw [if_neg h.asymm, if_pos h]
      omega
  · rw [across, Finset.sum_singleton]
    calc ∑ v ∈ {s}ᶜ, (cascade n).capacity s v
        ≤ ∑ _v ∈ ({s}ᶜ : Finset (Fin n)), 1 := Finset.sum_le_sum fun v _ => hcap s v
      _ ≤ n := by
        rw [Finset.sum_const, nsmul_one]
        exact_mod_cast (Finset.card_le_univ _).trans_eq (Fintype.card_fin n)
      _ ≤ r.top := hle.trans hr
  · calc ∑ p ∈ Finset.univ.offDiag, (cascade n).capacity p.1 p.2 * |(cascade n).cost p.1 p.2|
        ≤ ∑ _p ∈ (Finset.univ : Finset (Fin n)).offDiag, 1 := by
          refine Finset.sum_le_sum fun p hp => ?_
          rw [cascade_abs_cost hn (Finset.mem_offDiag.mp hp).2.2, mul_one]
          exact hcap p.1 p.2
      _ ≤ n * n := by
        rw [Finset.sum_const, nsmul_one, Finset.offDiag_card, Finset.card_univ, Fintype.card_fin]
        exact_mod_cast Nat.sub_le _ _
      _ ≤ r.top := hr

/-- All sums of a cascade stay far inside 64 bits, and no solve gets past its first pass. -/
theorem cascade_unsolved : Built (.ofBits 64) (cascade 65537) ∧
    NoNegativeCycle (cascade 65537).capacity (cascade 65537).cost ∧
    Moderate (.ofBits 64) (cascade 65537) 0 (Fin.last 65536) ∧
    ¬∃ result, ((cascade 65537).solveBetween (.ofBits 64) 0 65536).outcome = .ok result := by
  obtain ⟨hbuilt, hcrowded⟩ := longCascade_crowded
  have hne : (0 : Fin 65537) ≠ Fin.last 65536 := by decide
  have hfault : ((cascade 65537).solveBetween (.ofBits 64) 0 65536).outcome = .error (.fault .counterOverflow) :=
    solveBetween_crowded hne hcrowded
  refine ⟨hbuilt, cascade_noNegativeCycle 65537, cascade_moderate (by decide) (by decide) hne, ?_⟩
  rintro ⟨result, hok⟩
  cases hfault.symm.trans hok

end MinCostFlow
