/-
  MinCostFlow.Proofs.Flow.Basic — flows in a network, and the cuts that bound them.

  A flow gives each ordered pair of vertices an amount, of any kind of number: none is
  negative or more than the capacity of its pair, and at every vertex but the terminals as
  much leaves as comes in (`IsFlow`). Nothing here depends on how a flow was found.

  Proved: what leaves a set of vertices is what its members add (`sum_netOut`), so a set
  that separates the source from the sink shows the value of every flow
  (`IsFlow.value_eq`), and its capacity bounds it (`IsFlow.value_le`). What a flow costs
  depends only on what it sends net (`two_mul_costOfFlow`), and what a potential adds to
  the costs cancels out where as much leaves each vertex as comes in (`potentials_cancel`).
-/

import Mathlib.Algebra.BigOperators.Ring.Finset
import Mathlib.Algebra.Order.BigOperators.Group.Finset
import Mathlib.Algebra.Order.Ring.Cast
import Mathlib.Data.Fintype.BigOperators
import Mathlib.Tactic.Linarith
import Mathlib.Tactic.Ring
import MinCostFlow.Matrix.Basic

namespace MinCostFlow

variable {n : Nat} {R : Type*} [CommRing R] {m k : Matrix n} {s t : Fin n} {f : Fin n → Fin n → R}
  {side : Finset (Fin n)}

/-- What leaves `v`, less what comes in. -/
def netOut (f : Fin n → Fin n → R) (v : Fin n) : R := ∑ w, (f v w - f w v)

/-- The sum over the pairs that leave `side`. -/
def across (f : Fin n → Fin n → R) (side : Finset (Fin n)) : R := ∑ v ∈ side, ∑ w ∈ sideᶜ, f v w

structure IsFlow [LinearOrder R] (m : Matrix n) (s t : Fin n) (f : Fin n → Fin n → R) : Prop where
  nonneg : ∀ u v, u ≠ v → 0 ≤ f u v
  le_capacity : ∀ u v, u ≠ v → f u v ≤ m u v
  conserved : ∀ v, v ≠ s → v ≠ t → netOut f v = 0

/-- What it costs to send `f`, where a unit costs what `k` says. -/
def costOfFlow (k : Matrix n) (f : Fin n → Fin n → R) : R := ∑ p ∈ Finset.univ.offDiag, f p.1 p.2 * k p.1 p.2

theorem le_across {f : Fin n → Fin n → Int} {u v : Fin n} (hf : ∀ u v, 0 ≤ f u v) (hu : u ∈ side)
    (hv : v ∉ side) : f u v ≤ across f side := by
  have hrow : ∀ u, 0 ≤ ∑ v ∈ sideᶜ, f u v := fun u => Finset.sum_nonneg fun v _ => hf u v
  calc f u v ≤ ∑ v ∈ sideᶜ, f u v := Finset.single_le_sum (fun v _ => hf u v) (Finset.mem_compl.mpr hv)
    _ ≤ across f side := Finset.single_le_sum (fun u _ => hrow u) hu

/-- What goes from a member of `side` to another leaves one and comes into the other. -/
theorem sum_netOut (f : Fin n → Fin n → R) (side : Finset (Fin n)) :
    ∑ v ∈ side, netOut f v = across (fun u v => f u v - f v u) side := by
  have hinside : ∑ v ∈ side, ∑ w ∈ side, (f v w - f w v) = 0 := by
    simp only [Finset.sum_sub_distrib]
    rw [Finset.sum_comm, sub_self]
  have hsplit : ∀ v, netOut f v = ∑ w ∈ side, (f v w - f w v) + ∑ w ∈ sideᶜ, (f v w - f w v) :=
    fun v => (Finset.sum_add_sum_compl side _).symm
  simp only [hsplit]
  rw [Finset.sum_add_distrib, hinside, zero_add, across]

namespace IsFlow

variable [LinearOrder R] (h : IsFlow m s t f)

include h

/-- Of the members of `side` only the source adds anything. -/
theorem value_eq (hs : s ∈ side) (ht : t ∉ side) : netOut f s = across (fun u v => f u v - f v u) side := by
  rw [← sum_netOut, Finset.sum_eq_single_of_mem s hs]
  intro v hv hvs
  exact h.conserved v hvs fun hvt => ht (hvt ▸ hv)

variable [IsStrictOrderedRing R]

/-- No flow is greater than the capacity of a cut. -/
theorem value_le (hs : s ∈ side) (ht : t ∉ side) :
    netOut f s ≤ (across m side : Int) := by
  rw [h.value_eq hs ht]
  unfold across
  push_cast
  refine Finset.sum_le_sum fun v hv => Finset.sum_le_sum fun w hw => ?_
  have hvw : v ≠ w := fun he => Finset.mem_compl.mp hw (he ▸ hv)
  have hback := h.nonneg w v hvw.symm
  have hcap := h.le_capacity v w hvw
  linarith

/-- All that the source sends comes into the sink. -/
theorem netOut_eq (hst : s ≠ t) (v : Fin n) :
    netOut f v = netOut f s * ((if s = v then 1 else 0) - (if t = v then 1 else 0)) := by
  have hall := sum_netOut f Finset.univ
  simp only [across, Finset.compl_univ, Finset.sum_empty, Finset.sum_const_zero] at hall
  rw [Finset.sum_eq_add s t hst (fun v _ hv => h.conserved v hv.1 hv.2) (by simp) (by simp)] at hall
  by_cases hs : s = v
  · obtain rfl := hs
    rw [if_pos rfl, if_neg hst.symm, sub_zero, mul_one]
  by_cases ht : t = v
  · obtain rfl := ht
    rw [if_neg hs, if_pos rfl]
    linarith
  · rw [if_neg hs, if_neg ht, h.conserved v (Ne.symm hs) (Ne.symm ht), sub_zero, mul_zero]

/-- Flows of one value add the same at every vertex. -/
theorem netOut_eq_of_value {f' : Fin n → Fin n → R} (hst : s ≠ t) (h' : IsFlow m s t f')
    (hvalue : netOut f s = netOut f' s) (v : Fin n) : netOut f v = netOut f' v := by
  rw [h.netOut_eq hst, h'.netOut_eq hst, hvalue]

end IsFlow

/-! ## Costs -/

theorem netOut_cast (f : Fin n → Fin n → Int) (v : Fin n) :
    netOut (fun u v => (f u v : R)) v = (netOut f v : Int) := by
  simp [netOut]

theorem costOfFlow_cast (k : Matrix n) (f : Fin n → Fin n → Int) :
    costOfFlow k (fun u v => (f u v : R)) = (costOfFlow k f : Int) := by
  simp [costOfFlow]

/-- A flow in integers is one in any kind of number. -/
theorem IsFlow.cast [LinearOrder R] [IsStrictOrderedRing R] {f : Fin n → Fin n → Int} (h : IsFlow m s t f) :
    IsFlow m s t fun u v => (f u v : R) := by
  refine ⟨?_, ?_, ?_⟩
  · intro u v huv
    exact Int.cast_nonneg (h.nonneg u v huv)
  · intro u v huv
    exact Int.cast_le.mpr (h.le_capacity u v huv)
  · intro v hs ht
    rw [netOut_cast, h.conserved v hs ht, Int.cast_zero]

theorem sum_offDiag {z : Fin n → Fin n → R} (hz : ∀ u, z u u = 0) :
    ∑ p ∈ Finset.univ.offDiag, z p.1 p.2 = ∑ u, ∑ v, z u v := by
  rw [← Finset.sum_product', Finset.univ_product_univ]
  refine Finset.sum_subset (Finset.subset_univ _) fun p _ hp => ?_
  have hdiag : p.1 = p.2 := by simpa using hp
  rw [hdiag, hz]

/-- A unit that goes back refunds what it cost, so only the difference counts. -/
theorem two_mul_costOfFlow (hk : ∀ u v, u ≠ v → k v u = -k u v) (f : Fin n → Fin n → R) :
    2 * costOfFlow k f = ∑ u, ∑ v, (f u v - f v u) * k u v := by
  have hswap : ∑ p ∈ Finset.univ.offDiag, f p.2 p.1 * k p.1 p.2 = -costOfFlow k f := by
    rw [costOfFlow, ← Finset.sum_neg_distrib]
    refine Finset.sum_equiv (Equiv.prodComm _ _) (by simp [eq_comm]) fun p hp => ?_
    have hne : p.1 ≠ p.2 := by simpa using hp
    simp [hk p.1 p.2 hne]
  rw [← sum_offDiag fun u => by rw [sub_self, zero_mul]]
  simp only [sub_mul, Finset.sum_sub_distrib]
  rw [hswap, costOfFlow]
  ring

theorem potentials_cancel {z : Fin n → Fin n → R} (hskew : ∀ u v, z v u = -z u v) (hrow : ∀ u, ∑ v, z u v = 0)
    (p : Fin n → R) : ∑ u, ∑ v, z u v * (p u - p v) = 0 := by
  have hout : ∑ u, ∑ v, z u v * p u = 0 := by simp only [← Finset.sum_mul, hrow, zero_mul, Finset.sum_const_zero]
  have hin : ∑ u, ∑ v, z u v * p v = -∑ u, ∑ v, z u v * p u := by
    rw [Finset.sum_comm]
    simp only [← Finset.sum_neg_distrib]
    exact Finset.sum_congr rfl fun v _ => Finset.sum_congr rfl fun u _ => by rw [hskew v u, neg_mul]
  simp only [mul_sub, Finset.sum_sub_distrib, hin, hout, neg_zero, sub_zero]

/-- Where `h` sends more than `f` on pairs of positive reduced cost and less on the others, it costs more. -/
theorem costOfFlow_le_of_reduced [LinearOrder R] [IsStrictOrderedRing R] {h : Fin n → Fin n → R} {p : Fin n → R}
    (hk : ∀ u v, u ≠ v → k v u = -k u v) (hnet : ∀ v, netOut h v = netOut f v)
    (hreduced : ∀ u v, u ≠ v → 0 ≤ (h u v - h v u - (f u v - f v u)) * (k u v + (p u - p v))) :
    costOfFlow k f ≤ costOfFlow k h := by
  let z : Fin n → Fin n → R := fun u v => h u v - h v u - (f u v - f v u)
  have hskew : ∀ u v, z v u = -z u v := fun u v => by ring
  have hrow : ∀ u, ∑ v, z u v = 0 := fun u => by
    rw [Finset.sum_sub_distrib, ← netOut, ← netOut, hnet, sub_self]
  have hnonneg : ∀ u v, 0 ≤ z u v * (k u v + (p u - p v)) := by
    intro u v
    by_cases huv : u = v
    · rw [huv, show z v v = 0 by ring, zero_mul]
    · exact hreduced u v huv
  have hdouble : 2 * costOfFlow k h - 2 * costOfFlow k f = ∑ u, ∑ v, z u v * (k u v + (p u - p v)) :=
    calc 2 * costOfFlow k h - 2 * costOfFlow k f
        = ∑ u, ∑ v, z u v * k u v := by
          simp only [two_mul_costOfFlow hk, ← Finset.sum_sub_distrib, ← sub_mul, z]
      _ = ∑ u, ∑ v, z u v * (k u v + (p u - p v)) := by
          simp only [mul_add, Finset.sum_add_distrib, potentials_cancel hskew hrow, add_zero]
  have hsum : 0 ≤ ∑ u, ∑ v, z u v * (k u v + (p u - p v)) :=
    Finset.sum_nonneg fun u _ => Finset.sum_nonneg fun v _ => hnonneg u v
  linarith

end MinCostFlow
