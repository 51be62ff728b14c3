/-
  MinCostFlow.Proofs.Unreached.Basic — networks that are alike where the source can send.

  Take a set of vertices that residual capacity does not lead out of, and outside of which
  nothing was sent (`Confined`). Walks that start in it stay in it, and so does flow that is
  sent along them: only the pairs of the set change. So the set stays as it was described,
  even though pairs that were closed open again behind the flow.

  Two networks are alike on such a set if they have the same capacities and residual
  capacities on the pairs that leave its vertices, and the same costs on those of these pairs
  that something is left on (`Alike`). The rest may differ: pairs that leave other vertices,
  pairs of a vertex with itself, and costs where there is nothing to send.

  Proved: sending flow along the same path keeps a set confined (`Confined.pushed`) and two
  networks alike (`Alike.pushed`). Networks that are alike have sent the same everywhere, and
  list the same arcs at the same cost (`Alike.listed_eq`).
-/

import MinCostFlow.Proofs.Flow.Listing

namespace MinCostFlow

variable {n : Nat} {r : IntRange} {g g' h h' : Network n} {s t u v : Fin n} {inside : Finset (Fin n)}
  {arcs w : List (Fin n × Fin n)} {a : Augmentation}

structure Confined (r : IntRange) (inside : Finset (Fin n)) (g : Network n) : Prop where
  sound : Sound r g
  skew : ∀ u v, g.sent v u = -g.sent u v
  closed : ∀ u v, u ∈ inside → Open g.residual u v → v ∈ inside
  untouched : ∀ u v, u ∉ inside → g.sent u v = 0

theorem Confined.walk_inside (hg : Confined r inside g) (hu : u ∈ inside) (hw : Walk g.residual u w v) :
    v ∈ inside ∧ ∀ x ∈ w, x.1 ∈ inside ∧ x.2 ∈ inside :=
  hw.inside hg.closed hu

theorem Confined.pushed (hg : Confined r inside g) (hs : s ∈ inside) (hp : Pushed r g s t arcs a g') :
    Confined r inside g' := by
  have harcs := (hg.walk_inside hs hp.walk).2
  refine ⟨hp.sound hg.sound, hp.sent_skew hg.skew, ?_, ?_⟩
  · intro u v hu ho
    rcases hp.opened ho with ho | hback
    · exact hg.closed u v hu ho
    · exact (harcs (v, u) hback).1
  · intro u v hu
    have hforth : (u, v) ∉ arcs := fun hm => hu (harcs (u, v) hm).1
    have hback : (v, u) ∉ arcs := fun hm => hu (harcs (v, u) hm).2
    rw [hp.sent_eq, hg.untouched u v hu, net, List.count_eq_zero_of_not_mem hforth,
      List.count_eq_zero_of_not_mem hback]
    simp

/-! ## Two networks -/

/-- The same numbers on all pairs that lead from a vertex of `inside` to another vertex. -/
def SameFrom (inside : Finset (Fin n)) (m m' : Matrix n) : Prop := ∀ u v, u ∈ inside → u ≠ v → m u v = m' u v

structure Alike (r : IntRange) (inside : Finset (Fin n)) (g h : Network n) : Prop where
  left : Confined r inside g
  right : Confined r inside h
  capacity : SameFrom inside g.capacity h.capacity
  residual : SameFrom inside g.residual h.residual
  cost : ∀ u v, u ∈ inside → Open g.residual u v → g.cost u v = h.cost u v
  totalFlow : g.totalFlow = h.totalFlow

/-- An arc that opens is the reverse of one that was open, at the opposite cost. -/
theorem Alike.pushed (hgh : Alike r inside g h) (hs : s ∈ inside) (hp : Pushed r g s t arcs a g')
    (hp' : Pushed r h s t arcs a h') : Alike r inside g' h' := by
  refine ⟨hgh.left.pushed hs hp, hgh.right.pushed hs hp', ?_, ?_, ?_, ?_⟩
  · rw [hp.capacity_eq, hp'.capacity_eq]
    exact hgh.capacity
  · intro u v hu huv
    rw [hp.residual, hp'.residual, hgh.residual u v hu huv]
  · intro u v hu ho
    rw [hp.cost_eq, hp'.cost_eq]
    rcases hp.opened ho with ho | hback
    · exact hgh.cost u v hu ho
    · have hv := ((hgh.left.walk_inside hs hp.walk).2 (v, u) hback).1
      have hsame := hgh.cost v u hv (hp.walk.isOpen (v, u) hback)
      rw [hgh.left.sound.cost_skew v u ho.1.symm, hgh.right.sound.cost_skew v u ho.1.symm, hsame]
  · rw [hp.totalFlow_eq, hp'.totalFlow_eq, hgh.totalFlow]

namespace Alike

variable (hgh : Alike r inside g h)

include hgh

theorem sent_eq (u v : Fin n) : g.sent u v = h.sent u v := by
  by_cases hu : u ∈ inside
  · by_cases huv : u = v
    · have hleft := hgh.left.skew u u
      have hright := hgh.right.skew u u
      rw [← huv]
      omega
    · rw [Network.sent, Network.sent, hgh.capacity u v hu huv, hgh.residual u v hu huv]
  · rw [hgh.left.untouched u v hu, hgh.right.untouched u v hu]

theorem sentPairs_eq : g.sentPairs = h.sentPairs := by
  unfold Network.sentPairs
  simp only [hgh.sent_eq]

/-- What was sent can be taken back, so its cost is one of those that are the same. -/
theorem cost_eq_of_sent (hpos : 0 < g.sent u v) : g.cost u v = h.cost u v := by
  have hback : g.sent v u < 0 := by
    rw [hgh.left.skew u v]
    omega
  have hv : v ∈ inside := by
    by_contra hv
    rw [hgh.left.untouched v u hv] at hback
    omega
  have hopen : Open g.residual v u := by
    have hcap := hgh.left.sound.capacity_nonneg v u
    refine ⟨?_, ?_⟩
    · rintro rfl
      omega
    · rw [Network.sent] at hback
      omega
  have hsame := hgh.cost v u hv hopen
  rw [hgh.left.sound.cost_skew v u hopen.1, hgh.right.sound.cost_skew v u hopen.1, hsame]

theorem listed_eq : g.sentPairs.map g.listed = h.sentPairs.map h.listed := by
  rw [← hgh.sentPairs_eq]
  refine List.map_congr_left fun p hp => ?_
  have hpos := Network.mem_sentPairs.mp hp
  unfold Network.listed
  rw [hgh.sent_eq, hgh.cost_eq_of_sent hpos]

theorem flowCost_eq : g.flowCost r = h.flowCost r := by
  rw [Network.flowCost_eq hgh.left.sound, Network.flowCost_eq hgh.right.sound, hgh.listed_eq]

end Alike

end MinCostFlow
