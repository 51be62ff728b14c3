/-
  MinCostFlow.Proofs.Cut.Capacity — what the capacity of a cut counts.

  A cut is given as a list of vertices. Which arcs leave it depends on the set of them alone,
  but the arcs are counted vertex by vertex along the list, so those of a vertex that is listed
  twice are counted twice (`diamond_twice`). Capacities are not negative, so the sums on the
  way never leave the range if the whole sum does not.

  Proved, of every network that callers can come to: each vertex counts as often as it is
  listed, in whatever order; repetitions of vertices that no capacity leaves from do no harm, so
  a list without repetitions gives the capacity that leaves the set; and the first number that
  names no vertex is reported (`cutCapacity_counts`).
-/

import MinCostFlow.Network.Cut
import MinCostFlow.Proofs.Flow.Basic
import MinCostFlow.Proofs.PartialSums
import MinCostFlow.Proofs.Reach.Sound

namespace MinCostFlow

variable {n : Nat} {r : IntRange} {g : Network n} {side : List (Fin n)} {names : List Nat} {x : Nat}

namespace Network

/-! ## Vertices given by number -/

theorem mapM_vertex (side : List (Fin n)) : (side.map (·.val)).mapM (vertex n) = .ok side := by
  induction side with
  | nil => rfl
  | cons v side ih =>
    rw [List.map_cons, List.mapM_cons, vertex_eq_ok.mpr rfl, ih]
    rfl

theorem exists_vertices (h : ∀ x ∈ names, x < n) : ∃ us : List (Fin n), us.map (·.val) = names := by
  induction names with
  | nil => exact ⟨[], rfl⟩
  | cons x names ih =>
    obtain ⟨us, rfl⟩ := ih fun y hy => h y (List.mem_cons_of_mem x hy)
    exact ⟨⟨x, h x (List.mem_cons_self ..)⟩ :: us, rfl⟩

theorem mapM_vertex_error (h : names.find? (n ≤ ·) = some x) : names.mapM (vertex n) = .error (.outOfRange x n) := by
  induction names with
  | nil => cases h
  | cons y names ih =>
    rw [List.mapM_cons]
    by_cases hy : n ≤ y
    · obtain rfl : y = x := by simpa [hy] using h
      rw [vertex_eq_error.mpr ⟨hy, rfl⟩]
      rfl
    · have hlt : y < n := by omega
      rw [vertex_eq_ok.mpr (show (⟨y, hlt⟩ : Fin n).val = y from rfl), ih (by simpa [hy] using h)]
      rfl

theorem cutCapacity_vertices (r : IntRange) (g : Network n) (side : List (Fin n)) :
    g.cutCapacity r (side.map (·.val)) = .ok (capacityLeaving r g side) := by
  rw [cutCapacity, mapM_vertex]
  rfl

theorem cutCapacity_outside (r : IntRange) (g : Network n) (h : names.find? (n ≤ ·) = some x) :
    g.cutCapacity r names = .error (.outOfRange x n) := by
  rw [cutCapacity, mapM_vertex_error h]
  rfl

/-! ## Arcs that leave a cut -/

/-- An arc that leaves the cut is counted as often as its tail is listed. -/
theorem sum_leaving (f : Fin n → Fin n → Int) (side : List (Fin n)) :
    ((leaving side).map fun p => f p.1 p.2).sum =
      ∑ u ∈ side.toFinset, side.count u * ∑ v ∈ side.toFinsetᶜ, f u v := by
  have houtside : ((List.finRange n).filter (· ∉ side)).toFinset = side.toFinsetᶜ := by
    ext v
    simp
  have hrow : ∀ u, (((List.finRange n).filter (· ∉ side)).map (f u)).sum = ∑ v ∈ side.toFinsetᶜ, f u v := by
    intro u
    rw [← houtside, List.sum_toFinset _ ((List.nodup_finRange n).filter _)]
  calc ((leaving side).map fun p => f p.1 p.2).sum
      = (side.map fun u => (((List.finRange n).filter (· ∉ side)).map (f u)).sum).sum := by
        simp only [leaving, List.flatMap_def, List.map_flatten, List.sum_flatten, List.map_map, Function.comp_def]
    _ = ∑ u ∈ side.toFinset, side.count u * ∑ v ∈ side.toFinsetᶜ, f u v := by
        simp only [hrow, Finset.sum_list_map_count, nsmul_eq_mul]

theorem cutCapacity_counted (hcap : ∀ u v, 0 ≤ g.capacity u v) (side : List (Fin n)) :
    g.cutCapacity r (side.map (·.val)) =
      .ok (r.fit? (∑ u ∈ side.toFinset, side.count u * ∑ v ∈ side.toFinsetᶜ, g.capacity u v)) := by
  rw [cutCapacity_vertices, capacityLeaving, foldlM_fit? (fun p _ => hcap p.1 p.2) r.zero_mem, zero_add, sum_leaving]

/-- Listing a vertex again changes nothing if no capacity leaves the cut from there. -/
theorem cutCapacity_of_repeats (hcap : ∀ u v, 0 ≤ g.capacity u v)
    (h : ∀ u, 1 < side.count u → ∀ v, v ∉ side → g.capacity u v = 0) :
    g.cutCapacity r (side.map (·.val)) = .ok (r.fit? (across g.capacity side.toFinset)) := by
  rw [cutCapacity_counted hcap, across]
  congr 2
  refine Finset.sum_congr rfl fun u hu => ?_
  have hlisted : 0 < side.count u := List.count_pos_iff.mpr (List.mem_toFinset.mp hu)
  by_cases hagain : 1 < side.count u
  · rw [Finset.sum_eq_zero fun v hv => h u hagain v (by simpa using hv), mul_zero]
  · rw [show side.count u = 1 by omega, Nat.cast_one, one_mul]

theorem cutCapacity_eq (hcap : ∀ u v, 0 ≤ g.capacity u v) (h : side.Nodup) :
    g.cutCapacity r (side.map (·.val)) = .ok (r.fit? (across g.capacity side.toFinset)) :=
  cutCapacity_of_repeats hcap fun u hu => absurd (List.nodup_iff_count_le_one.mp h u) (by omega)

/-- The arc `1 -> 2` leaves the first cut and comes into the second. -/
example : diamond.cutCapacity (.ofBits 32) [0, 1] = .ok (some 3) ∧
    diamond.cutCapacity (.ofBits 32) [0, 2] = .ok (some 2) := by
  decide

/-- The vertices may come in any order. -/
theorem cutCapacity_perm (hcap : ∀ u v, 0 ≤ g.capacity u v) {other : List (Fin n)} (h : other.Perm side) :
    g.cutCapacity r (other.map (·.val)) = g.cutCapacity r (side.map (·.val)) := by
  rw [cutCapacity_counted hcap, cutCapacity_counted hcap, List.toFinset_eq_of_perm _ _ h]
  simp only [h.count_eq]

end Network

/-- Each vertex counts as often as it is listed, in whatever order. That is the capacity that leaves the set of the
listed vertices if none that some capacity leaves from is repeated. -/
theorem cutCapacity_counts (hg : Reach r g) (names : List Nat) :
    ((∀ x ∈ names, x < n) → ∃ us : List (Fin n), us.map (·.val) = names ∧
      g.cutCapacity r names =
        .ok (r.fit? (∑ u ∈ us.toFinset, us.count u * ∑ v ∈ us.toFinsetᶜ, g.capacity u v)) ∧
      ((∀ u, 1 < us.count u → ∀ v, v ∉ us → g.capacity u v = 0) →
        g.cutCapacity r names = .ok (r.fit? (∑ u ∈ us.toFinset, ∑ v ∈ us.toFinsetᶜ, g.capacity u v))) ∧
      ∀ other, other.Perm names → g.cutCapacity r other = g.cutCapacity r names) ∧
    ∀ x, names.find? (n ≤ ·) = some x → g.cutCapacity r names = .error (.outOfRange x n) := by
  have hcap := (reach_sound hg).capacity_nonneg
  constructor
  · intro hin
    obtain ⟨us, rfl⟩ := Network.exists_vertices hin
    refine ⟨us, rfl, Network.cutCapacity_counted hcap us, Network.cutCapacity_of_repeats hcap, ?_⟩
    intro other hperm
    obtain ⟨vs, rfl⟩ := Network.exists_vertices fun x hx => hin x (hperm.subset hx)
    exact Network.cutCapacity_perm hcap ((List.map_perm_map_iff Fin.val_injective).mp hperm)
  · intro x hx
    exact Network.cutCapacity_outside r g hx

/-- Nothing leaves the cut from the vertex that is listed twice, and the order does not matter. -/
theorem diamond_counts : diamond.cutCapacity (.ofBits 32) [3, 0, 3] = .ok (some 2) ∧
    diamond.cutCapacity (.ofBits 32) [0, 3, 3] = diamond.cutCapacity (.ofBits 32) [3, 0, 3] ∧
    diamond.cutCapacity (.ofBits 32) [0, 5, 4] = .error (.outOfRange 5 4) := by
  obtain ⟨hin, -⟩ := cutCapacity_counts (.built diamond_built) [3, 0, 3]
  obtain ⟨us, hus, -, hset, horder⟩ := hin (by decide)
  obtain rfl : us = [3, 0, 3] := List.map_injective_iff.mpr Fin.val_injective hus
  refine ⟨?_, horder _ (by decide), (cutCapacity_counts (.built diamond_built) [0, 5, 4]).2 5 (by decide)⟩
  rw [hset (by decide)]
  decide

/-- So the answer does not depend on the set alone. -/
theorem diamond_twice : Reach (.ofBits 32) diamond ∧ across diamond.capacity {0} = 2 ∧
    diamond.cutCapacity (.ofBits 32) [0] = .ok (some 2) ∧ diamond.cutCapacity (.ofBits 32) [0, 0] = .ok (some 4) :=
  ⟨.built diamond_built, by decide, by decide, by decide⟩

end MinCostFlow
