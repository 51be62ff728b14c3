/-
  MinCostFlow.Proofs.History.Superposition — the flow on a pair is what the paths leave there.

  An augmentation sends its bottleneck over every hop of its path. What went from `u`
  directly to `v` is the sum over the augmentations with that hop (`passed`), and what
  stays of it is that sum less the one for the way back (`netPassed`). No path takes a hop
  twice, or a hop and its reverse, because it visits no vertex twice; so one augmentation
  moves the residual capacities of a pair just once.

  Proved, of a built network and calls that return: every pair has lost what has passed on
  it net (`History.sent_built`). So opposite pairs share their capacity for good, and only
  residual capacities have changed (`performAll_bookkeeping`); and the listing is of the
  pairs on which more has passed than came back, each with that amount
  (`performAll_arcFlows`).
-/

import MinCostFlow.Proofs.Flow.Listing
import MinCostFlow.Proofs.History.Basic

namespace MinCostFlow

variable {n : Nat} {r : IntRange} {g g' : Network n} {s t : Fin n} {arcs : List (Fin n × Fin n)}
  {a : Augmentation} {as bs : List Augmentation} {calls : List Call}

/-! ## Sums over augmentations -/

/-- What the augmentations with the property `p` have sent. -/
def sentBy (p : Augmentation → Prop) [DecidablePred p] (as : List Augmentation) : Int :=
  ((as.filter (p ·)).map (·.bottleneck)).sum

section

variable (p : Augmentation → Prop) [DecidablePred p]

@[simp] theorem sentBy_nil : sentBy p [] = 0 := rfl

@[simp] theorem sentBy_append (as bs : List Augmentation) : sentBy p (as ++ bs) = sentBy p as + sentBy p bs := by
  simp [sentBy]

theorem sentBy_singleton (a : Augmentation) : sentBy p [a] = if p a then a.bottleneck else 0 := by
  by_cases h : p a <;> simp [sentBy, h]

end

/-- What went from `u` directly to `v`. -/
def passed (as : List Augmentation) (u v : Nat) : Int := sentBy (fun a => (u, v) ∈ hops a.path) as

/-- What went from `u` directly to `v`, less what went back. -/
def netPassed (as : List Augmentation) (u v : Nat) : Int := passed as u v - passed as v u

theorem netPassed_swap (as : List Augmentation) (u v : Nat) : netPassed as v u = -netPassed as u v := by
  unfold netPassed
  omega

@[simp] theorem netPassed_nil (u v : Nat) : netPassed [] u v = 0 := rfl

@[simp] theorem netPassed_append (as bs : List Augmentation) (u v : Nat) :
    netPassed (as ++ bs) u v = netPassed as u v + netPassed bs u v := by
  simp only [netPassed, passed, sentBy_append]
  omega

/-! ## What has passed is what residual capacity has lost -/

theorem Pushed.mem_hops (h : Pushed r g s t arcs a g') (u v : Fin n) :
    (u.val, v.val) ∈ hops a.path ↔ (u, v) ∈ arcs := by
  rw [h.hops_path]
  exact List.mem_map_of_injective (Fin.val_injective.prodMap Fin.val_injective) (a := (u, v))

theorem Pushed.passed_eq (h : Pushed r g s t arcs a g') (u v : Fin n) :
    passed [a] u v = a.bottleneck * arcs.count (u, v) := by
  have hcount : arcs.count (u, v) = if (u, v) ∈ arcs then 1 else 0 := (List.Nodup.of_map Prod.fst h.simple).count
  rw [passed, sentBy_singleton, hcount]
  by_cases hm : (u, v) ∈ arcs
  · rw [if_pos ((h.mem_hops u v).mpr hm), if_pos hm]
    simp
  · rw [if_neg (mt (h.mem_hops u v).mp hm), if_neg hm]
    simp

theorem Pushed.netPassed_eq (h : Pushed r g s t arcs a g') (u v : Fin n) :
    netPassed [a] u v = a.bottleneck * net arcs u v := by
  rw [netPassed, h.passed_eq, h.passed_eq, net, mul_sub]

namespace History

theorem sent_eq (h : History r g as g') (u v : Fin n) : g'.sent u v = g.sent u v + netPassed as u v := by
  induction h with
  | start => simp
  | choose _ _ _ ih => exact ih
  | push _ hp ih => rw [hp.sent_eq, ih, netPassed_append, hp.netPassed_eq, add_assoc]

theorem sent_built (h : History r g as g') (hg : Built r g) (u v : Fin n) : g'.sent u v = netPassed as u v := by
  rw [h.sent_eq, built_sent hg, zero_add]

theorem sent_skew (h : History r g as g') (hg : Built r g) (u v : Fin n) : g'.sent v u = -g'.sent u v := by
  rw [h.sent_built hg, h.sent_built hg, netPassed_swap]

end History

/-- Calls that return change residual capacities alone, and what one pair has lost its opposite has gained. -/
theorem performAll_bookkeeping (hg : Built r g) (h : g.performAll r calls = .ok (as, g')) :
    g'.capacity = g.capacity ∧ g'.cost = g.cost ∧ (∀ u, g'.residual u u = g'.capacity u u) ∧
      ∀ u v, u ≠ v → 0 ≤ g'.residual u v ∧
        g'.residual u v + g'.residual v u = g'.capacity u v + g'.capacity v u ∧
        g'.cost u v = -g'.cost v u := by
  have hist := performAll_history h
  have hsound := hist.sound (built_sound hg)
  refine ⟨hist.frame.1, hist.frame.2, ?_, ?_⟩
  · intro u
    have := hist.sent_skew hg u u
    simp only [Network.sent] at this
    omega
  · intro u v huv
    have := hist.sent_skew hg u v
    simp only [Network.sent] at this
    exact ⟨hsound.residual_nonneg u v, by omega, hsound.cost_skew v u huv.symm⟩

theorem twoWay_bookkeeping : ∃ g', twoWay.performAll (.ofBits 8) twoWayCalls = .ok (twoWayAugmentations, g') ∧
    g'.capacity = twoWay.capacity ∧ g'.cost = twoWay.cost ∧ (∀ u, g'.residual u u = g'.capacity u u) ∧
      ∀ u v, u ≠ v → 0 ≤ g'.residual u v ∧
        g'.residual u v + g'.residual v u = g'.capacity u v + g'.capacity v u ∧
        g'.cost u v = -g'.cost v u := by
  obtain ⟨g', h, -⟩ := twoWay_performed
  exact ⟨g', h, performAll_bookkeeping twoWay_built h⟩

/-! ## The listing -/

theorem History.mem_listed (h : History r g as g') (hg : Built r g) {x : ArcFlow} :
    x ∈ g'.sentPairs.map g'.listed ↔
      ∃ u v : Fin n, u ≠ v ∧ 0 < netPassed as u v ∧ x = ⟨u, v, netPassed as u v, g'.cost u v⟩ := by
  simp only [← h.sent_built hg]
  constructor
  · intro hx
    obtain ⟨⟨u, v⟩, huv, rfl⟩ := List.mem_map.mp hx
    have hpos := Network.mem_sentPairs.mp huv
    refine ⟨u, v, ?_, hpos, rfl⟩
    rintro rfl
    have := h.sent_skew hg u u
    omega
  · intro hx
    obtain ⟨u, v, -, hpos, rfl⟩ := hx
    exact List.mem_map.mpr ⟨(u, v), Network.mem_sentPairs.mpr hpos, rfl⟩

/-- After calls that return exactly the pairs on which more has passed than came back are listed, in
order, with what is left of it; so no two of them are opposite. -/
theorem performAll_arcFlows (hg : Built r g) (h : g.performAll r calls = .ok (as, g')) :
    ∃ flows, g'.arcFlows r = .ok flows ∧ flows.Pairwise ArcFlow.Before ∧
      (∀ x, x ∈ flows ↔ ∃ u v : Fin n, u ≠ v ∧ 0 < netPassed as u v ∧ x = ⟨u, v, netPassed as u v, g'.cost u v⟩) ∧
      (∀ u v : Fin n, netPassed as u v ≤ g'.capacity u v) ∧
      ∀ x ∈ flows, ∀ y ∈ flows, ¬(y.tail = x.head ∧ y.head = x.tail) := by
  have hist := performAll_history h
  have hsound := hist.sound (built_sound hg)
  refine ⟨_, Network.arcFlows_eq hsound, Network.listed_sorted g', fun x => hist.mem_listed hg, ?_, ?_⟩
  · intro u v
    rw [← hist.sent_built hg, Network.sent]
    have := hsound.residual_nonneg u v
    omega
  · intro x hx y hy hopposite
    obtain ⟨u, v, -, hpos, rfl⟩ := (hist.mem_listed hg).mp hx
    obtain ⟨u', v', -, hback, rfl⟩ := (hist.mem_listed hg).mp hy
    obtain ⟨htail, hhead⟩ : u'.val = v.val ∧ v'.val = u.val := hopposite
    rw [htail, hhead, netPassed_swap] at hback
    omega

theorem twoWay_arcFlows : ∃ g', twoWay.performAll (.ofBits 8) twoWayCalls = .ok (twoWayAugmentations, g') ∧
    g'.arcFlows (.ofBits 8) = .ok twoWayFlows ∧ twoWayFlows.Pairwise ArcFlow.Before ∧
      (∀ x, x ∈ twoWayFlows ↔ ∃ u v : Fin 5, u ≠ v ∧ 0 < netPassed twoWayAugmentations u v ∧
        x = ⟨u, v, netPassed twoWayAugmentations u v, g'.cost u v⟩) ∧
      (∀ u v : Fin 5, netPassed twoWayAugmentations u v ≤ g'.capacity u v) ∧
      ∀ x ∈ twoWayFlows, ∀ y ∈ twoWayFlows, ¬(y.tail = x.head ∧ y.head = x.tail) := by
  obtain ⟨g', h, hflows, -⟩ := twoWay_performed
  obtain ⟨flows, hflows', hlisted⟩ := performAll_arcFlows twoWay_built h
  obtain rfl := Except.ok.inj (hflows.symm.trans hflows')
  exact ⟨g', h, hflows, hlisted⟩

end MinCostFlow
