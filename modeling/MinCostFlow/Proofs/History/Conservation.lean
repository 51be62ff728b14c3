/-
  MinCostFlow.Proofs.History.Conservation — flow leaves a vertex and comes into it only
  where paths start and end.

  A path leaves each of its vertices as often as it comes there, but for its ends. So
  whatever was augmented before, and between whichever terminals, what leaves a vertex net
  is what the paths that start there have sent less what those that end there have
  (`started`, `ended`). The total flow is the sum over all paths.

  Proved, of a built network and calls that return: both hold at every vertex, where the
  augmentations of solves that failed count like all others (`performAll_conserves`).
-/

import MinCostFlow.Proofs.History.Superposition

namespace MinCostFlow

variable {n : Nat} {r : IntRange} {g g' : Network n} {s t : Fin n} {arcs : List (Fin n × Fin n)}
  {a : Augmentation} {as : List Augmentation} {calls : List Call}

/-- What was sent on the paths that start at `v`. -/
def started (as : List Augmentation) (v : Nat) : Int := sentBy (fun a => a.path.head? = some v) as

/-- What was sent on the paths that end at `v`. -/
def ended (as : List Augmentation) (v : Nat) : Int := sentBy (fun a => a.path.getLast? = some v) as

theorem Pushed.path_ends (h : Pushed r g s t arcs a g') :
    a.path.head? = some s.val ∧ a.path.getLast? = some t.val := by
  have hleads := leads_map Fin.val h.leads
  rw [← h.hops_path] at hleads
  apply ends_of_hops hleads
  rw [h.hops_path]
  obtain ⟨x, hx, -⟩ := h.attained
  exact List.ne_nil_of_mem (List.mem_map_of_mem hx)

theorem Pushed.out_eq (h : Pushed r g s t arcs a g') (v : Fin n) :
    a.bottleneck * ∑ w, net arcs v w = started [a] v - ended [a] v := by
  obtain ⟨hhead, hlast⟩ := h.path_ends
  simp only [balance h.leads, started, ended, sentBy_singleton, hhead, hlast, Option.some.injEq, ← Fin.ext_iff]
  by_cases hs : s = v <;> by_cases ht : t = v <;> simp [hs, ht]

namespace History

theorem out_eq (h : History r g as g') (hg : Built r g) (v : Fin n) :
    ∑ w, g'.sent v w = started as v - ended as v := by
  induction h with
  | start => simp [built_sent hg, started, ended]
  | choose _ _ _ ih => exact ih
  | push _ hp ih =>
    have hone := hp.out_eq v
    simp only [started, ended, sentBy_append] at ih hone ⊢
    simp only [hp.sent_eq, Finset.sum_add_distrib, ← Finset.mul_sum, ih, hone]
    omega

theorem totalFlow_eq (h : History r g as g') : g'.totalFlow = g.totalFlow + (as.map (·.bottleneck)).sum := by
  induction h with
  | start => simp
  | choose _ _ _ ih => exact ih
  | push _ hp ih =>
    rw [hp.totalFlow_eq, ih]
    simp [add_assoc]

theorem bottleneck_pos (h : History r g as g') : ∀ a ∈ as, 0 < a.bottleneck := by
  induction h with
  | start => simp
  | choose _ _ _ ih => exact ih
  | push _ hp ih =>
    intro a ha
    rcases List.mem_append.mp ha with ha | ha
    · exact ih a ha
    · obtain rfl := List.mem_singleton.mp ha
      exact hp.pos

end History

theorem performAll_conserves (hg : Built r g) (h : g.performAll r calls = .ok (as, g')) :
    (∀ v : Fin n, ∑ w, (g'.capacity v w - g'.residual v w) = started as v - ended as v) ∧
      g'.totalFlow = (as.map (·.bottleneck)).sum ∧ ∀ a ∈ as, 1 ≤ a.bottleneck := by
  have hist := performAll_history h
  refine ⟨hist.out_eq hg, ?_, hist.bottleneck_pos⟩
  rw [hist.totalFlow_eq, (built_fresh hg).2, zero_add]

theorem twoWay_conserves : ∃ g', twoWay.performAll (.ofBits 8) twoWayCalls = .ok (twoWayAugmentations, g') ∧
    (∀ v : Fin 5, ∑ w, (g'.capacity v w - g'.residual v w) =
      started twoWayAugmentations v - ended twoWayAugmentations v) ∧
    g'.totalFlow = 72 ∧ ∀ a ∈ twoWayAugmentations, 1 ≤ a.bottleneck := by
  obtain ⟨g', h, -⟩ := twoWay_performed
  exact ⟨g', h, performAll_conserves twoWay_built h⟩

end MinCostFlow
