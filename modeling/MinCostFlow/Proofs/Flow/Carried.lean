/-
  MinCostFlow.Proofs.Flow.Carried — the flow that a network carries.

  What has been sent from `u` to `v` is what the residual capacity of the pair has lost
  (`Network.sent`); it is negative if more was sent the other way, and the flow of the pair
  is its positive part (`Network.flow`). A network carries a flow between two vertices if
  what was sent in one direction is missing in the other, and what leaves each vertex is
  the total flow at the source, minus the total flow at the sink and nothing elsewhere
  (`Carries`).

  Proved: a network without augmentations carries no flow (`fresh_carries`), and rounds from
  there leave a network that carries one (`Rounds.carries_from`), which respects the
  capacities (`Carries.isFlow`) and has the total flow as its value (`Carries.value`). What
  is left of a cut between the terminals is what the flow has not taken
  (`Carries.totalFlow_add_across`), so no cut has less capacity than the total flow.
-/

import MinCostFlow.Proofs.Flow.Basic
import MinCostFlow.Proofs.Reach.Sound

namespace MinCostFlow

variable {n : Nat} {r : IntRange} {g g' : Network n} {s t : Fin n} {a : Augmentation}
  {as : List Augmentation} {arcs : List (Fin n × Fin n)} {u v : Fin n}

namespace Network

/-- What has been sent from `u` to `v`, less what was sent back. -/
def sent (g : Network n) (u v : Fin n) : Int := g.capacity u v - g.residual u v

def flow (g : Network n) (u v : Fin n) : Int := max 0 (g.sent u v)

theorem flow_sub_flow (hskew : g.sent v u = -g.sent u v) : g.flow u v - g.flow v u = g.sent u v := by
  unfold flow
  omega

end Network

structure Carries (s t : Fin n) (g : Network n) : Prop where
  skew : ∀ u v, g.sent v u = -g.sent u v
  out : ∀ v, ∑ w, g.sent v w = g.totalFlow * ((if s = v then 1 else 0) - (if t = v then 1 else 0))

theorem Pushed.sent_eq (h : Pushed r g s t arcs a g') (u v : Fin n) :
    g'.sent u v = g.sent u v + a.bottleneck * net arcs u v := by
  simp only [Network.sent, h.capacity_eq, h.residual]
  ring

theorem Pushed.sent_skew (h : Pushed r g s t arcs a g') (hg : ∀ u v, g.sent v u = -g.sent u v) (u v : Fin n) :
    g'.sent v u = -g'.sent u v := by
  rw [h.sent_eq, h.sent_eq, hg u v, net_swap]
  ring

theorem Pushed.carries (h : Pushed r g s t arcs a g') (hg : Carries s t g) : Carries s t g' := by
  refine ⟨h.sent_skew hg.skew, fun v => ?_⟩
  simp only [h.sent_eq, Finset.sum_add_distrib, ← Finset.mul_sum, balance h.leads, hg.out, h.totalFlow_eq]
  ring

theorem fresh_sent (h : g.residual = g.capacity) (u v : Fin n) : g.sent u v = 0 := by
  rw [Network.sent, h, sub_self]

theorem built_sent (h : Built r g) (u v : Fin n) : g.sent u v = 0 := fresh_sent (built_fresh h).1 u v

theorem fresh_carries (h : g.residual = g.capacity ∧ g.totalFlow = 0) (s t : Fin n) : Carries s t g := by
  constructor
  · intro u v
    rw [fresh_sent h.1, fresh_sent h.1, neg_zero]
  · intro v
    simp only [fresh_sent h.1, h.2, Finset.sum_const_zero, zero_mul]

theorem Rounds.carries_from (h : Rounds r s t g as g') (hg : Carries s t g) : Carries s t g' :=
  h.keeps (P := Carries s t) (fun _ _ _ _ hg hp => hp.carries hg) hg

theorem Rounds.carries (h : Rounds r s t g as g') (hg : Built r g) : Carries s t g' :=
  h.carries_from (fresh_carries (built_fresh hg) s t)

namespace Carries

variable (h : Carries s t g)

include h

theorem flow_sub_flow (u v : Fin n) : g.flow u v - g.flow v u = g.sent u v :=
  Network.flow_sub_flow (h.skew u v)

theorem netOut_flow (v : Fin n) : netOut g.flow v = ∑ w, g.sent v w := by
  simp only [netOut, h.flow_sub_flow]

theorem value (hst : s ≠ t) : netOut g.flow s = g.totalFlow := by
  rw [h.netOut_flow, h.out, if_pos rfl, if_neg hst.symm]
  ring

theorem isFlow (hg : Sound r g) : IsFlow g.capacity s t g.flow := by
  refine ⟨fun u v _ => le_max_left .., ?_, ?_⟩
  · intro u v _
    have hcap := hg.capacity_nonneg u v
    have hres := hg.residual_nonneg u v
    show max 0 (g.capacity u v - g.residual u v) ≤ g.capacity u v
    omega
  · intro v hs ht
    rw [h.netOut_flow, h.out, if_neg hs.symm, if_neg ht.symm]
    ring

/-- The flow, and what is left of a cut, make up its capacity. -/
theorem totalFlow_add_across (hg : Sound r g) (hst : s ≠ t) {side : Finset (Fin n)} (hs : s ∈ side) (ht : t ∉ side) :
    g.totalFlow + across g.residual side = across g.capacity side := by
  rw [← h.value hst, (h.isFlow hg).value_eq hs ht]
  simp only [across, ← Finset.sum_add_distrib, h.flow_sub_flow, Network.sent, sub_add_cancel]

theorem totalFlow_le_across (hg : Sound r g) (hst : s ≠ t) {side : Finset (Fin n)} (hs : s ∈ side) (ht : t ∉ side) :
    g.totalFlow ≤ across g.capacity side := by
  have hboth := h.totalFlow_add_across hg hst hs ht
  have hleft : 0 ≤ across g.residual side := by
    refine Finset.sum_nonneg fun u _ => Finset.sum_nonneg fun v _ => ?_
    exact hg.residual_nonneg u v
  omega

theorem residual_add_residual (u v : Fin n) :
    g.residual u v + g.residual v u = g.capacity u v + g.capacity v u := by
  have := h.skew u v
  simp only [Network.sent] at this
  omega

end Carries

end MinCostFlow
