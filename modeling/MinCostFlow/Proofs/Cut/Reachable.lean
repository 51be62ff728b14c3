/-
  MinCostFlow.Proofs.Cut.Reachable — breadth-first search finds what walks lead to.

  Proved: what is explored is reached from the queue by a walk (`explore_sound`), and
  residual capacity from a vertex that is explored to one that was unseen has that one
  explored too (`explore_closed`). So exploring from a vertex finds the ends of all walks
  that start there, and nothing else (`mem_reachableFrom`).
-/

import MinCostFlow.Network.Cut
import MinCostFlow.Proofs.Walk.Cost

namespace MinCostFlow.Network

variable {n : Nat} {g : Network n} {s u v : Fin n} {queue unseen : List (Fin n)}

theorem mem_expand : v ∈ (expand g u unseen).1 ↔ v ∈ unseen ∧ 0 < g.residual u v := by
  simp [expand]

theorem mem_of_not_expanded (h : v ∈ unseen) (hv : v ∉ (expand g u unseen).1) : v ∈ (expand g u unseen).2 := by
  simp only [expand, List.partition_eq_filter_filter, List.mem_filter] at hv ⊢
  simp_all

theorem queue_explored (h : v ∈ queue) : v ∈ explore g queue unseen := by
  fun_induction explore g queue unseen with
  | case1 => exact h
  | case2 unseen u queue next ih =>
    rcases List.mem_cons.mp h with rfl | h
    · exact List.mem_cons_self ..
    · exact List.mem_cons_of_mem u (ih (List.mem_append_left next.1 h))

theorem explore_sound (h : v ∈ explore g queue unseen) : ∃ u ∈ queue, ∃ w, Walk g.residual u w v := by
  fun_induction explore g queue unseen with
  | case1 => cases h
  | case2 unseen u queue next ih =>
    rcases List.mem_cons.mp h with rfl | h
    · exact ⟨v, List.mem_cons_self .., [], .nil⟩
    obtain ⟨x, hx, w, hw⟩ := ih h
    rcases List.mem_append.mp hx with hx | hx
    · exact ⟨x, List.mem_cons_of_mem u hx, w, hw⟩
    · -- `x` has just been found from `u`
      refine ⟨u, List.mem_cons_self .., ?_⟩
      by_cases hux : u = x
      · exact ⟨w, hux ▸ hw⟩
      · have hstep : Walk g.residual u [(u, x)] x := Walk.nil.snoc ⟨hux, (mem_expand.mp hx).2⟩
        exact ⟨_, hstep.append hw⟩

theorem explore_closed (hu : u ∈ explore g queue unseen) (hv : v ∈ unseen) (huv : 0 < g.residual u v) :
    v ∈ explore g queue unseen := by
  fun_induction explore g queue unseen with
  | case1 => cases hu
  | case2 unseen x queue next ih =>
    refine List.mem_cons_of_mem x ?_
    by_cases hfound : v ∈ next.1
    · exact queue_explored (List.mem_append_right queue hfound)
    · rcases List.mem_cons.mp hu with rfl | hu
      · exact absurd (mem_expand.mpr ⟨hv, huv⟩) hfound
      · exact ih hu (mem_of_not_expanded hv hfound)

theorem mem_reachableFrom : v ∈ g.reachableFrom s ↔ ∃ w, Walk g.residual s w v := by
  simp only [reachableFrom, List.mem_filter, List.mem_finRange, true_and, List.contains_iff_mem]
  constructor
  · intro h
    obtain ⟨u, hu, hw⟩ := explore_sound h
    obtain rfl := List.mem_singleton.mp hu
    exact hw
  · intro h
    obtain ⟨w, hw⟩ := h
    -- every vertex but `s` was unseen, so the walk never leaves what is explored
    induction w using List.reverseRecOn generalizing v with
    | nil =>
      obtain rfl := hw.leads
      exact queue_explored (List.mem_singleton_self s)
    | append_singleton w a ih =>
      obtain ⟨hl, rfl⟩ := leads_snoc.mp hw.leads
      have hprev := ih ⟨hl, fun b hb => hw.isOpen b (List.mem_append_left [a] hb)⟩
      have ha := hw.isOpen a (List.mem_append_right w (List.mem_singleton_self a))
      by_cases hs : a.2 = s
      · rw [hs]
        exact queue_explored (List.mem_singleton_self s)
      · exact explore_closed hprev (by simpa using hs) ha.2

theorem reachableFrom_nodup (g : Network n) (s : Fin n) : (g.reachableFrom s).Nodup :=
  (List.nodup_finRange n).filter _

end MinCostFlow.Network
