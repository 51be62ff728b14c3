/-
  MinCostFlow.Proofs.History.Cost — the flow costs what the augmentations have cost.

  An augmentation costs its bottleneck times what a unit costs along its path
  (`billed`); an arc that is taken back refunds its cost there. A network adds up its flow
  arc by arc instead, in the direction in which something is left. The two agree because
  the costs in opposite directions differ just in sign: each pair may be counted in both
  directions, at half of what was sent net (`two_mul_costOfFlow`), and for a single path
  that count is twice what the path costs (`sum_net_mul`).

  Proved, of a built network and calls that return: whatever cost the network gives is what
  all augmentations so far have cost, and that is also the total cost of a solve that
  succeeds, with its own augmentations included (`performAll_flowCost`).
-/

import MinCostFlow.Proofs.History.Superposition

namespace MinCostFlow

variable {n : Nat} {r : IntRange} {g g' : Network n} {s t : Fin n} {arcs w : List (Fin n × Fin n)}
  {k : Matrix n} {a : Augmentation} {as : List Augmentation} {calls : List Call} {c : Int}

/-! ## A walk as a flow -/

/-- A walk costs as much as the flow that sends a unit along each of its arcs. -/
theorem costOfFlow_count (hw : ∀ x ∈ w, x.1 ≠ x.2) :
    costOfFlow k (fun u v => (w.count (u, v) : Int)) = costOf k w := by
  -- `Finset.sum_list_map_count` compares pairs by another test for equality
  induction w with
  | nil => simp [costOfFlow]
  | cons a w ih =>
    have ha : a ∈ (Finset.univ : Finset (Fin n)).offDiag := by simp [hw a (List.mem_cons_self ..)]
    have hrest := ih fun x hx => hw x (List.mem_cons_of_mem a hx)
    simp only [costOfFlow, Int.cast_id] at hrest ⊢
    simp only [List.count_cons, beq_iff_eq, Prod.mk.eta, Nat.cast_add, add_mul, Finset.sum_add_distrib, hrest,
      Nat.cast_ite, Nat.cast_one, Nat.cast_zero, ite_mul, one_mul, zero_mul, Finset.sum_ite_eq, if_pos ha,
      costOf_cons]
    exact add_comm ..

theorem sum_net_mul (hk : ∀ u v, u ≠ v → k v u = -k u v) (hw : ∀ x ∈ w, x.1 ≠ x.2) :
    ∑ u, ∑ v, net w u v * k u v = 2 * costOf k w := by
  rw [← costOfFlow_count hw, two_mul_costOfFlow hk]
  rfl

/-! ## The bill -/

/-- What the augmentations have cost. -/
def billed (as : List Augmentation) : Int := (as.map fun a => a.bottleneck * a.cost).sum

theorem billed_snoc (as : List Augmentation) (a : Augmentation) :
    billed (as ++ [a]) = billed as + a.bottleneck * a.cost := by
  simp [billed]

theorem Pushed.sum_sent_mul (h : Pushed r g s t arcs a g') (hg : Sound r g) :
    ∑ u, ∑ v, g'.sent u v * g'.cost u v = ∑ u, ∑ v, g.sent u v * g.cost u v + 2 * (a.bottleneck * a.cost) := by
  have hpath : ∑ u, ∑ v, net arcs u v * g.cost u v = 2 * a.cost := by
    rw [h.cost]
    exact sum_net_mul hg.cost_skew fun x hx => (h.le_residual x hx).1
  calc ∑ u, ∑ v, g'.sent u v * g'.cost u v
      = ∑ u, ∑ v, (g.sent u v * g.cost u v + a.bottleneck * (net arcs u v * g.cost u v)) := by
        simp only [h.sent_eq, h.cost_eq, add_mul, mul_assoc]
    _ = ∑ u, ∑ v, g.sent u v * g.cost u v + a.bottleneck * ∑ u, ∑ v, net arcs u v * g.cost u v := by
        simp only [Finset.sum_add_distrib, Finset.mul_sum]
    _ = ∑ u, ∑ v, g.sent u v * g.cost u v + 2 * (a.bottleneck * a.cost) := by
        rw [hpath]
        ring

namespace History

/-- Each pair is counted in both directions, so the sum is twice the bill. -/
theorem sum_sent_mul (h : History r g as g') (hg : Built r g) :
    ∑ u, ∑ v, g'.sent u v * g'.cost u v = 2 * billed as := by
  induction h with
  | start => simp [built_sent hg, billed]
  | choose _ _ _ ih => exact ih
  | push hist hp ih =>
    rw [hp.sum_sent_mul (hist.sound (built_sound hg)), ih, billed_snoc]
    ring

theorem flowCost_exact (h : History r g as g') (hg : Built r g) (hc : g'.flowCost r = .ok (some c)) :
    c = billed as := by
  have hsound := h.sound (built_sound hg)
  have hskew := h.sent_skew hg
  have hdouble := two_mul_costOfFlow hsound.cost_skew g'.flow
  simp only [Network.flow_sub_flow (hskew _ _)] at hdouble
  have hbill := h.sum_sent_mul hg
  rw [Network.flowCost_exact hsound hskew hc]
  simp only [Int.cast_id] at hdouble
  omega

end History

theorem performAll_flowCost (hg : Built r g) (h : g.performAll r calls = .ok (as, g')) :
    (∃ answer, g'.flowCost r = .ok answer ∧ ∀ c, answer = some c → c = billed as) ∧
      ∀ source sink result, (g'.solveBetween r source sink).outcome = .ok result →
        result.totalCost = billed (as ++ result.augmentations) := by
  have hist := performAll_history h
  constructor
  · obtain ⟨answer, hanswer⟩ := Network.flowCost_returns (hist.sound (built_sound hg))
    refine ⟨answer, hanswer, ?_⟩
    rintro c rfl
    exact hist.flowCost_exact hg hanswer
  · intro source sink result hsolve
    obtain ⟨s, t, -, -, hsolved⟩ := Network.solveBetween_eq_ok hsolve
    exact (hist.trans hsolved.rounds.history).flowCost_exact hg hsolved.cost

theorem twoWay_flowCost : ∃ g', twoWay.performAll (.ofBits 8) twoWayCalls = .ok (twoWayAugmentations, g') ∧
    g'.flowCost (.ofBits 8) = .ok (some 3) ∧ 3 = billed twoWayAugmentations ∧
    (g'.solveBetween (.ofBits 8) 4 0).outcome = .ok ⟨79, 10, [⟨[4, 3, 2, 0], 7, 1⟩]⟩ ∧
    10 = billed (twoWayAugmentations ++ [⟨[4, 3, 2, 0], 7, 1⟩]) := by
  obtain ⟨g', h, -, hcost, hsolve⟩ := twoWay_performed
  obtain ⟨⟨answer, hanswer, hbilled⟩, htotal⟩ := performAll_flowCost twoWay_built h
  obtain rfl := Except.ok.inj (hcost.symm.trans hanswer)
  exact ⟨g', h, hcost, hbilled 3 rfl, hsolve, htotal 4 0 _ hsolve⟩

end MinCostFlow
