/-
  MinCostFlow.Proofs.Search.Cascade — networks in which a search has too much to count.

  In a cascade an arc leads from each vertex to each later one, and a unit gains 1 on it
  (`cascade_capacity`, `cascade_cost`). So a way is the better the more vertices it goes
  through. A pass goes through the arcs by their tails. When it comes to those that leave
  vertex `k`, that vertex is labelled with `-k`, and no later one with less (`Fallen`). Then
  each of the arcs improves its head, and the next vertex is labelled with `-(k + 1)`, like all
  that come after it (`row_falls`). So the first pass of a search from vertex `0` has as many
  improvements as there are arcs (`cascade_gains`).

  Such a network is not out of the ordinary: there are no cycles in it (`cascade_noNegativeCycle`),
  no cost is more than 1 either way (`cascade_abs_cost`), and no arc takes more than a unit.

  Proved: with 65537 vertices or more, the first pass of a search from vertex `0` has too many
  improvements to count (`cascade_crowded`).
-/

import Mathlib.Order.Interval.Finset.Fin
import MinCostFlow.Proofs.Reach.Sound
import MinCostFlow.Proofs.Search.Counting

namespace MinCostFlow

open Labels

variable {n k : Nat} {r : IntRange} {g : Network n} {arcs : List (Fin n × Fin n)} {labels : Labels n}
  {s t u v : Fin n}

/-! ## The network -/

/-- Each vertex gets an arc to every later one. -/
def cascade (n : Nat) : Network n :=
  (Matrix.pairsWhere n fun u v => u < v).foldl (fun g a => g.setArc a.1 a.2 1 (-1)) (Network.empty n)

/-- A cell that all of the arcs would set to the same. -/
theorem ite_mem_cons (a : Fin n × Fin n) (arcs : List (Fin n × Fin n)) (x y : Int) :
    (if (u, v) ∈ arcs then x else if a.1 = u ∧ a.2 = v then x else y) = if (u, v) ∈ a :: arcs then x else y := by
  by_cases ha : a = (u, v)
  · simp [ha]
  · have hne : ¬(a.1 = u ∧ a.2 = v) := fun h => ha (Prod.ext h.1 h.2)
    simp [hne, Ne.symm ha]

theorem foldl_setArc_capacity (arcs : List (Fin n × Fin n)) (g : Network n) (u v : Fin n) :
    (arcs.foldl (fun g a => g.setArc a.1 a.2 1 (-1)) g).capacity u v = if (u, v) ∈ arcs then 1 else g.capacity u v := by
  induction arcs generalizing g with
  | nil => rfl
  | cons a arcs ih =>
    rw [List.foldl_cons, ih, Network.capacity_setArc, ite_mem_cons]

/-- Arcs that lead on to later vertices do not meet in both directions. -/
theorem foldl_setArc_cost (g : Network n) (h : ∀ a ∈ arcs, a.1 < a.2) (huv : u < v) :
    (arcs.foldl (fun g a => g.setArc a.1 a.2 1 (-1)) g).cost u v = if (u, v) ∈ arcs then -1 else g.cost u v := by
  induction arcs generalizing g with
  | nil => rfl
  | cons a arcs ih =>
    have hforward := h a (List.mem_cons_self ..)
    have hback : ¬(a.2 = u ∧ a.1 = v) := by
      rintro ⟨rfl, rfl⟩
      exact absurd huv hforward.asymm
    rw [List.foldl_cons, ih _ fun b hb => h b (List.mem_cons_of_mem a hb), Network.cost_setArc, if_neg hback,
      ite_mem_cons]

theorem cascade_capacity (u v : Fin n) : (cascade n).capacity u v = if u < v then 1 else 0 := by
  rw [cascade, foldl_setArc_capacity]
  simp [Network.empty, Network.withZeros]

theorem cascade_cost (h : u < v) : (cascade n).cost u v = -1 := by
  rw [cascade, foldl_setArc_cost _ ?_ h]
  · simp [h]
  · intro a ha
    simpa using Matrix.mem_pairsWhere.mp ha

theorem cascade_built (hn : n * n < indexLimit) (hr : 1 ≤ r.top) : Built r (cascade n) := by
  have hone : (1 : Int) ∈ r := IntRange.mem_iff.mpr ⟨by omega, by omega⟩
  have hneg : (-1 : Int) ∈ r := IntRange.mem_iff.mpr ⟨by omega, by omega⟩
  have harcs := (built_empty (r := r) hn).setArcs
    ((Matrix.pairsWhere n fun u v => u < v).map fun a => (a.1, a.2, 1, -1)) ?_
  · rwa [List.foldl_map] at harcs
  · simp only [List.mem_map]
    rintro _ ⟨a, -, rfl⟩
    exact ⟨Int.one_nonneg, hone, hneg, hone⟩

/-- Taking a unit back loses what it has gained. -/
theorem cascade_abs_cost (hn : n * n < indexLimit) (huv : u ≠ v) : |(cascade n).cost u v| = 1 := by
  rcases lt_or_gt_of_ne huv with h | h
  · rw [cascade_cost h]
    rfl
  · have hskew := (built_sound (cascade_built (r := ⟨1⟩) hn le_rfl)).cost_skew v u h.ne
    rw [hskew, cascade_cost h]
    rfl

theorem cascade_residual (u v : Fin n) (hn : n * n < indexLimit) : (cascade n).residual u v = if u < v then 1 else 0 := by
  rw [(built_fresh (cascade_built (r := ⟨1⟩) hn le_rfl)).1, cascade_capacity]

/-- Vertices are numbered so that each arc leads on. -/
theorem cascade_noNegativeCycle (n : Nat) : NoNegativeCycle (cascade n).capacity (cascade n).cost := by
  refine noNegativeCycle_iff_potential.mpr ⟨fun v => -(v.val : Int), fun u v ho => ?_⟩
  have hopen := ho.2
  rw [cascade_capacity] at hopen
  split at hopen
  · rename_i huv
    rw [cascade_cost huv]
    have hlt := Fin.lt_def.mp huv
    show -(v.val : Int) ≤ -(u.val : Int) + -1
    omega
  · cases hopen

/-! ## The first pass -/

namespace Labels

/-- All arcs of a row improve their heads, if none of these has a label as cheap yet. -/
theorem row_gains {c : Int} {vs : List (Fin n)} (hnd : vs.Nodup) (hu : u ∉ vs) (hl : ∃ l, labels.label u = some l ∧ l.cost = c)
    (hcost : ∀ v ∈ vs, g.cost u v = -1) (hr : c - 1 ∈ r) (hdear : ∀ v ∈ vs, ¬labels.Within v (c - 1)) :
    ∃ final, sweep r g (vs.map fun v => (u, v)) labels = .ok final ∧
      gains r g (vs.map fun v => (u, v)) labels = vs.length ∧
      (∀ x ∉ vs, final.label x = labels.label x) ∧ ∀ v ∈ vs, final.label v = some ⟨c - 1, some u⟩ := by
  induction vs generalizing labels with
  | nil => exact ⟨labels, rfl, rfl, fun _ _ => rfl, by simp⟩
  | cons v vs ih =>
    obtain ⟨hv, hnd⟩ := List.nodup_cons.mp hnd
    obtain ⟨huv, hu⟩ := not_or.mp (List.mem_cons.not.mp hu)
    obtain ⟨l, hl, rfl⟩ := hl
    have hstep : improve r g labels u v = .ok (some (labels.put v ⟨l.cost - 1, some u⟩)) := by
      refine improve_eq_some.mpr ⟨l, hl, ?_⟩
      rw [hcost v (List.mem_cons_self ..)]
      exact ⟨hr, hdear v (List.mem_cons_self ..), rfl⟩
    have htail : ∃ m, (labels.put v ⟨l.cost - 1, some u⟩).label u = some m ∧ m.cost = l.cost :=
      ⟨l, by rw [label_put, if_neg (Ne.symm huv), hl], rfl⟩
    have hrest : ∀ x ∈ vs, ¬(labels.put v ⟨l.cost - 1, some u⟩).Within x (l.cost - 1) := by
      intro x hx
      have hne : v ≠ x := by
        rintro rfl
        exact hv hx
      rw [within_put, if_neg hne]
      exact hdear x (List.mem_cons_of_mem v hx)
    obtain ⟨final, hfinal, hcount, hkept, hnew⟩ :=
      ih hnd hu htail (fun x hx => hcost x (List.mem_cons_of_mem v hx)) hrest
    refine ⟨final, ?_, ?_, fun x hx => ?_, fun x hx => ?_⟩
    · rw [List.map_cons, sweep_cons, hstep]
      exact hfinal
    · rw [List.map_cons, gains, hstep]
      exact congrArg Nat.succ hcount
    · obtain ⟨hxv, hx⟩ := not_or.mp (List.mem_cons.not.mp hx)
      rw [hkept x hx, label_put, if_neg (Ne.symm hxv)]
    · rcases List.mem_cons.mp hx with rfl | hx
      · rw [hkept x hv, label_put, if_pos rfl]
      · exact hnew x hx

/-- When a pass comes to vertex `k`. -/
structure Fallen (k : Nat) (labels : Labels n) : Prop where
  here : ∀ v : Fin n, v.val = k → ∃ l, labels.label v = some l ∧ l.cost = -k
  later : ∀ v : Fin n, k < v.val → ¬labels.Within v (-k - 1)

theorem start_fallen (hs : s.val = 0) : (start s).Fallen 0 := by
  constructor
  · intro v hv
    exact ⟨⟨0, none⟩, by rw [label_start, if_pos (Fin.ext (hs.trans hv.symm))], rfl⟩
  · rintro v hv ⟨l, hl, -⟩
    rw [label_start, if_neg (fun h => by rw [← h, hs] at hv; exact absurd hv (lt_irrefl 0))] at hl
    cases hl

end Labels

/-- The arcs of a cascade that leave one vertex. -/
def cascadeRow (u : Fin n) : List (Fin n × Fin n) := ((List.finRange n).filter fun v => u < v).map fun v => (u, v)

theorem length_later (u : Fin n) : ((List.finRange n).filter fun v => u < v).length = n - 1 - u.val := by
  rw [← Fin.card_Ioi, ← List.toFinset_card_of_nodup ((List.nodup_finRange n).filter _)]
  congr 1
  ext v
  simp

theorem row_falls (hr : (n : Int) ≤ r.top) (h : labels.Fallen k) (hk : u.val = k) :
    ∃ final, sweep r (cascade n) (cascadeRow u) labels = .ok final ∧
      gains r (cascade n) (cascadeRow u) labels = n - 1 - k ∧ final.Fallen (k + 1) := by
  have hlater : ∀ v : Fin n, v ∈ (List.finRange n).filter (fun v => u < v) ↔ k < v.val := by
    intro v
    simp [Fin.lt_def, hk]
  obtain ⟨final, hsweep, hgains, hkept, hnew⟩ := row_gains (r := r) (g := cascade n) (c := -k)
    ((List.nodup_finRange n).filter fun v => u < v) (by simp) (h.here u hk)
    (fun v hv => cascade_cost (by simpa using hv))
    (IntRange.mem_iff.mpr ⟨by have := u.isLt; omega, by omega⟩)
    (fun v hv => h.later v ((hlater v).mp hv))
  refine ⟨final, hsweep, by rw [cascadeRow, hgains, length_later, hk], ?_, ?_⟩
  · intro v hv
    exact ⟨_, hnew v ((hlater v).mpr (by omega)), by push_cast; omega⟩
  · rintro v hv ⟨l, hl, hc⟩
    obtain rfl := Option.some.inj ((hnew v ((hlater v).mpr (by omega))).symm.trans hl)
    push_cast at hc
    omega

theorem rows_gain (hr : (n : Int) ≤ r.top) {m : Nat} (hm : k + m = n) (h : labels.Fallen k) :
    2 * gains r (cascade n) (((List.finRange n).drop k).flatMap cascadeRow) labels = m * (m - 1) := by
  induction m generalizing k labels with
  | zero =>
    rw [List.drop_eq_nil_of_le (by simp; omega)]
    rfl
  | succ m ih =>
    have hk : k < n := by omega
    obtain ⟨final, hsweep, hgains, hfinal⟩ := row_falls (u := ⟨k, hk⟩) hr h rfl
    have hrest := ih (by omega) hfinal
    have hdrop : (List.finRange n).drop k = ⟨k, hk⟩ :: (List.finRange n).drop (k + 1) := by
      rw [List.drop_eq_getElem_cons (by simpa using hk), List.getElem_finRange]
      rfl
    have hcount : n - 1 - k = m := by omega
    rw [hdrop, List.flatMap_cons, (append_swept _ hsweep).2, hgains, hcount, Nat.mul_add, hrest]
    cases m with
    | zero => rfl
    | succ m =>
      simp only [Nat.add_sub_cancel]
      ring

theorem cascade_residualArcs (hn : n * n < indexLimit) :
    (cascade n).residualArcs = (List.finRange n).flatMap cascadeRow := by
  show _ = Matrix.pairsWhere n fun u v => u < v
  unfold Network.residualArcs
  congr 1
  funext u v
  rw [cascade_residual u v hn]
  by_cases huv : u < v
  · simp [huv, huv.ne]
  · simp [huv]

/-- Each arc of a cascade improves its head in the first pass. -/
theorem cascade_gains (hn : n * n < indexLimit) (hr : (n : Int) ≤ r.top) (hs : s.val = 0) :
    2 * gains r (cascade n) (cascade n).residualArcs (start s) = n * (n - 1) := by
  rw [cascade_residualArcs hn]
  exact rows_gain (k := 0) hr (Nat.zero_add n) (start_fallen hs)

/-- A vertex fewer, and the first pass could be counted. -/
theorem cascade_crowded (hn : n * n < indexLimit) (hr : (n : Int) ≤ r.top) (hs : s.val = 0) (hmany : 65537 ≤ n) :
    (cascade n).Crowded r s := by
  refine ⟨0, s.pos, start s, rfl, ?_⟩
  have hgains := cascade_gains hn hr hs
  have hpairs : 65537 * 65536 ≤ n * (n - 1) := Nat.mul_le_mul hmany (by omega)
  simp only [counterLimit]
  omega

/-- The first that is too long, in 64 bits. -/
theorem longCascade_crowded : Built (.ofBits 64) (cascade 65537) ∧ (cascade 65537).Crowded (.ofBits 64) 0 :=
  ⟨cascade_built (by decide) (by decide), cascade_crowded (by decide) (by decide) rfl le_rfl⟩

end MinCostFlow
