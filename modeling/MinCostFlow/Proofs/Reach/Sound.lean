/-
  MinCostFlow.Proofs.Reach.Sound — what is true of every network that callers can come to.

  Capacities, residual capacities and the total flow are not negative and can be stored,
  and so can costs; and between two different vertices the cost in one direction is minus
  the cost in the other (`Sound`). Every step keeps that (`step_sound`), so it holds of
  every network that is reached (`reach_sound`).

  A network without augmentations carries no flow: its residual capacities are its
  capacities (`built_fresh`, `untouched_fresh`). Rounds change neither capacities nor costs
  (`Rounds.frame`).
-/

import MinCostFlow.Proofs.Reach.Basic

namespace MinCostFlow

variable {n : Nat} {r : IntRange} {g g' : Network n} {s t u v : Fin n} {a : Augmentation}
  {as : List Augmentation} {arcs : List (Fin n × Fin n)} {c k : Int}

structure Sound (r : IntRange) (g : Network n) : Prop where
  capacity_nonneg : ∀ u v, 0 ≤ g.capacity u v
  capacity_le : ∀ u v, g.capacity u v ≤ r.top
  residual_nonneg : ∀ u v, 0 ≤ g.residual u v
  residual_le : ∀ u v, g.residual u v ≤ r.top
  cost_mem : ∀ u v, g.cost u v ∈ r
  cost_skew : ∀ u v, u ≠ v → g.cost v u = -g.cost u v
  flow_nonneg : 0 ≤ g.totalFlow
  flow_le : g.totalFlow ≤ r.top

theorem empty_sound (r : IntRange) (n : Nat) : Sound r (Network.empty n) := by
  have h0 : ∀ u v : Fin n, Matrix.zeros n u v = 0 := Matrix.get_zeros
  refine ⟨?_, ?_, ?_, ?_, ?_, ?_, le_rfl, Int.natCast_nonneg r.top⟩
  all_goals
    intro u v
    simp only [Network.empty, Network.withZeros, h0]
  · exact le_rfl
  · exact Int.natCast_nonneg r.top
  · exact le_rfl
  · exact Int.natCast_nonneg r.top
  · exact r.zero_mem
  · exact fun _ => rfl

theorem setArc_sound (h : Sound r g) (hc0 : 0 ≤ c) (hc : c ∈ r) (hk : k ∈ r) (hk' : -k ∈ r) :
    Sound r (g.setArc u v c k) := by
  have hct := (IntRange.mem_iff.mp hc).2
  refine ⟨?_, ?_, ?_, ?_, ?_, ?_, h.flow_nonneg, h.flow_le⟩
  · exact Matrix.forall_set (P := (0 ≤ ·)) hc0 h.capacity_nonneg
  · exact Matrix.forall_set (P := (· ≤ (r.top : Int))) hct h.capacity_le
  · exact Matrix.forall_set (P := (0 ≤ ·)) hc0 h.residual_nonneg
  · exact Matrix.forall_set (P := (· ≤ (r.top : Int))) hct h.residual_le
  · exact Matrix.forall_set (P := (· ∈ r)) hk' (Matrix.forall_set (P := (· ∈ r)) hk h.cost_mem)
  · intro i j hij
    have := h.cost_skew i j hij
    simp only [Network.cost_setArc]
    grind

theorem addArc_sound {tail head : Nat} (h : Sound r g) (hc : c ∈ r) (hk : k ∈ r)
    (ha : g.addArc r tail head c k = .ok g') : Sound r g' := by
  obtain ⟨u, v, -, -, hc0, hk', rfl⟩ := Network.addArc_eq_ok.mp ha
  exact setArc_sound h hc0 hc hk hk'

theorem built_sound (h : Built r g) : Sound r g :=
  Built.of_arcs (P := Sound r) (empty_sound r n) (fun _ _ _ _ _ _ hg hc hk ha => addArc_sound hg hc hk ha) h

theorem Pushed.sound (h : Pushed r g s t arcs a g') (hg : Sound r g) : Sound r g' := by
  have hpos := h.pos
  have hflow := hg.flow_nonneg
  refine ⟨?_, ?_, h.nonneg hg.residual_nonneg, h.le_top hg.residual_le, ?_, ?_, ?_, ?_⟩
  · rw [h.capacity_eq]
    exact hg.capacity_nonneg
  · rw [h.capacity_eq]
    exact hg.capacity_le
  · rw [h.cost_eq]
    exact hg.cost_mem
  · rw [h.cost_eq]
    exact hg.cost_skew
  · rw [h.totalFlow_eq]
    omega
  · rw [h.totalFlow_eq]
    exact (IntRange.mem_iff.mp h.total_mem).2

theorem Advances.sound (h : Advances r s t g a g') (hg : Sound r g) : Sound r g' := by
  obtain ⟨_, _, _, hp, _⟩ := h.pushed
  exact hp.sound hg

theorem Rounds.sound (h : Rounds r s t g as g') (hg : Sound r g) : Sound r g' :=
  h.keeps (P := Sound r) (fun _ _ _ _ hg hp => hp.sound hg) hg

theorem solveBetween_sound (hg : Sound r g) (source sink : Nat) :
    Sound r (g.solveBetween r source sink).network := by
  rcases Network.solveBetween_rounds r g source sink with ⟨-, h⟩ | ⟨s, t, -, -, -, h⟩
  · rwa [h]
  · exact h.sound hg

theorem Sound.withTerminals (h : Sound r g) (source sink : Nat) :
    Sound r { g with source := source, sink := sink } :=
  ⟨h.capacity_nonneg, h.capacity_le, h.residual_nonneg, h.residual_le, h.cost_mem, h.cost_skew, h.flow_nonneg,
    h.flow_le⟩

theorem setTerminals_sound {source sink : Nat} (hg : Sound r g) (h : g.setTerminals source sink = .ok g') :
    Sound r g' := by
  obtain ⟨_, _, -, -, rfl⟩ := Network.setTerminals_eq_ok.mp h
  exact hg.withTerminals source sink

theorem step_sound (h : Step r g as g') (hg : Sound r g) : Sound r g' := by
  cases h with
  | addArc hc hk h => exact addArc_sound hg hc hk h
  | setTerminals h => exact setTerminals_sound hg h
  | solve source sink => exact solveBetween_sound hg source sink
  | augment h =>
    obtain ⟨-, s, t, arcs, -, -, hp⟩ := augment_eq_ok h
    exact hp.sound hg

theorem reach_sound (h : Reach r g) : Sound r g := by
  induction h with
  | built h => exact built_sound h
  | step _ hs ih => exact step_sound hs ih

/-! ## Networks without flow -/

theorem addArc_fresh {tail head : Nat} (hg : g.residual = g.capacity ∧ g.totalFlow = 0)
    (h : g.addArc r tail head c k = .ok g') : g'.residual = g'.capacity ∧ g'.totalFlow = 0 := by
  obtain ⟨u, v, -, -, -, -, rfl⟩ := Network.addArc_eq_ok.mp h
  refine ⟨?_, hg.2⟩
  apply Matrix.ext
  intro i j
  rw [Network.residual_setArc, Network.capacity_setArc, hg.1]

theorem built_fresh (h : Built r g) : g.residual = g.capacity ∧ g.totalFlow = 0 :=
  Built.of_arcs (P := fun g => g.residual = g.capacity ∧ g.totalFlow = 0) ⟨rfl, rfl⟩
    (fun _ _ _ _ _ _ hg _ _ ha => addArc_fresh hg ha) h

/-- A solve without augmentations leaves what it was given. -/
theorem solveBetween_untouched {source sink : Nat} (h : (g.solveBetween r source sink).augmentations = []) :
    (g.solveBetween r source sink).network = g := by
  rcases Network.solveBetween_rounds r g source sink with ⟨-, hg⟩ | ⟨s, t, -, -, -, hrounds⟩
  · exact hg
  · rw [h] at hrounds
    generalize (g.solveBetween r source sink).network = final at hrounds ⊢
    cases hrounds
    rfl

theorem step_fresh (h : Step r g as g') (has : as = []) (hg : g.residual = g.capacity ∧ g.totalFlow = 0) :
    g'.residual = g'.capacity ∧ g'.totalFlow = 0 := by
  cases h with
  | addArc _ _ h => exact addArc_fresh hg h
  | setTerminals h =>
    obtain ⟨_, _, -, -, rfl⟩ := Network.setTerminals_eq_ok.mp h
    exact hg
  | solve source sink => rwa [solveBetween_untouched has]
  | augment => cases has

theorem untouched_fresh (h : Untouched r g) : g.residual = g.capacity ∧ g.totalFlow = 0 := by
  induction h with
  | built h => exact built_fresh h
  | step _ hs ih => exact step_fresh hs rfl ih

theorem Rounds.frame (h : Rounds r s t g as g') : g'.capacity = g.capacity ∧ g'.cost = g.cost := by
  refine h.keeps (P := fun x => x.capacity = g.capacity ∧ x.cost = g.cost) ?_ ⟨rfl, rfl⟩
  intro _ _ _ _ hg hp
  exact ⟨hp.capacity_eq.trans hg.1, hp.cost_eq.trans hg.2⟩

end MinCostFlow
