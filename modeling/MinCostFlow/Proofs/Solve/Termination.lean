/-
  MinCostFlow.Proofs.Solve.Termination — how many rounds a solve can take.

  Nothing counts the rounds of a solve. What ends them is the total flow: every round sends
  at least one unit (`Rounds.length_le_sent`), and none takes the total out of its range.
  So from any network there are at most as many rounds as the total flow is below the top
  of the range, whatever the costs are and whichever paths the searches find.

  Where no augmentation was made before, the rounds leave a flow, even if cycles of negative
  cost have made the labels meaningless. All of it leaves the source, over the capacities
  that are there (`Rounds.length_le_capacity`).

  Proved, of every network that callers can come to and any two numbers for the terminals: a
  solve ends after one search for each augmentation and one more at most, and no more
  augmentations than that. It ends with a result or an error, unless the last search is crowded
  (`solveBetween_terminates`).
-/

import MinCostFlow.Proofs.Search.Cascade
import MinCostFlow.Proofs.Solve.BrokenTree

namespace MinCostFlow

variable {n : Nat} {r : IntRange} {g g' : Network n} {s t : Fin n} {as : List Augmentation} {source sink : Nat}

/-! ## Sequences of rounds -/

theorem Rounds.length_le_sent (h : Rounds r s t g as g') : g.totalFlow + as.length ≤ g'.totalFlow := by
  induction h with
  | none => simp
  | cons h _ ih =>
    obtain ⟨_, _, _, hp, _⟩ := h.pushed
    have hpos := hp.pos
    have htotal := hp.totalFlow_eq
    simp only [List.length_cons]
    omega

theorem Rounds.length_le_room (h : Rounds r s t g as g') (hg : Sound r g) : (as.length : Int) ≤ r.top - g.totalFlow := by
  have hsent := h.length_le_sent
  have htop := (h.sound hg).flow_le
  omega

/-- Only what the arcs from the source can take is ever sent. -/
theorem Rounds.length_le_capacity (h : Rounds r s t g as g') (hg : Untouched r g) (hst : s ≠ t) :
    (as.length : Int) ≤ ∑ v ∈ {s}ᶜ, g.capacity s v := by
  have hfresh := untouched_fresh hg
  have hcarries := h.carries_from (fresh_carries hfresh s t)
  have hcut : g'.totalFlow ≤ across g'.capacity {s} :=
    hcarries.totalFlow_le_across (h.sound (reach_sound hg.reach)) hst (by simp) (by simpa using hst.symm)
  have hsent := h.length_le_sent
  rw [h.frame.1, across, Finset.sum_singleton] at hcut
  have hzero := hfresh.2
  omega

/-! ## Solves -/

/-- Only the last round of a run makes no augmentation. -/
theorem Network.exhaust_length (r : IntRange) (g : Network n) (s t : Fin n) :
    (g.exhaust r s t).rounds.length = (g.exhaust r s t).augmentations.length + 1 := by
  fun_induction exhaust r g s t with
  | case1 => rfl
  | case2 => rfl
  | case3 g found tree label a g' h ih =>
    simp only [Run.after, Run.augmentations, List.filterMap_cons, List.length_cons] at ih ⊢
    rw [ih]

/-- Whatever the costs are, a solve ends; with a fault just where its last search has too many improvements
to count, which takes 46342 vertices. It makes no more augmentations than the range has room for, nor, if
none was made before, than units can leave the source. -/
theorem solveBetween_terminates (hg : Reach r g) (source sink : Nat) :
    let x := g.solveBetween r source sink
    ((∃ result, x.outcome = .ok result) ∨ (∃ e, x.outcome = .error (.error e)) ∨
      x.outcome = .error (.fault .counterOverflow)) ∧
    (x.outcome = .error (.fault .counterOverflow) ↔
      ∃ s t : Fin n, s.val = source ∧ t.val = sink ∧ s ≠ t ∧ x.network.Crowded r s) ∧
    (x.outcome = .error (.fault .counterOverflow) → 46342 ≤ n) ∧
    x.rounds.length ≤ x.augmentations.length + 1 ∧
    (x.augmentations.length : Int) ≤ r.top - g.totalFlow ∧
    (Untouched r g → ∀ s : Fin n, s.val = source → (x.augmentations.length : Int) ≤ ∑ v ∈ {s}ᶜ, g.capacity s v) := by
  have hsound := reach_sound hg
  have hfault := solveBetween_fault_iff (f := .counterOverflow) hsound source sink
  simp only [true_and] at hfault
  refine ⟨solveBetween_returns hsound source sink, hfault, ?_, ?_, ?_, ?_⟩
  · intro h
    obtain ⟨_, _, -, -, -, hcrowded⟩ := hfault.mp h
    exact hcrowded.vertices
  · rcases Network.solveBetween_cases r g source sink with ⟨e, h⟩ | ⟨s, t, -, -, -, h⟩
    · rw [h]
      exact Nat.zero_le _
    · rw [h]
      exact (Network.exhaust_length r g s t).le
  · rcases Network.solveBetween_rounds r g source sink with ⟨h, -⟩ | ⟨s, t, -, -, -, h⟩
    · have hroom := hsound.flow_le
      rw [h, List.length_nil]
      omega
    · exact h.length_le_room hsound
  · intro huntouched s hs
    rcases Network.solveBetween_rounds r g source sink with ⟨h, -⟩ | ⟨s', t, hs', -, hst, h⟩
    · rw [h]
      exact Finset.sum_nonneg fun v _ => hsound.capacity_nonneg s v
    · obtain rfl : s' = s := Fin.ext (hs'.trans hs.symm)
      exact h.length_le_capacity huntouched hst

/-- The cycle of negative cost ends the solve, after one augmentation of at most two. -/
theorem whirl_terminates : (whirl.solveBetween (.ofBits 8) 0 1).augmentations.length = 1 ∧
    ((whirl.solveBetween (.ofBits 8) 0 1).augmentations.length : Int) ≤ 2 := by
  obtain ⟨-, -, -, -, -, hcapacity⟩ := solveBetween_terminates (.built whirl_built) 0 1
  have hsum : ∑ v ∈ {0}ᶜ, whirl.capacity 0 v = 2 := by decide +kernel
  refine ⟨by decide +kernel, ?_⟩
  rw [← hsum]
  exact hcapacity (.built whirl_built) 0 rfl

/-- A cascade ends with neither. -/
theorem cascade_unanswered : Reach (.ofBits 64) (cascade 65537) ∧
    ¬((∃ result, ((cascade 65537).solveBetween (.ofBits 64) 0 65536).outcome = .ok result) ∨
      ∃ e, ((cascade 65537).solveBetween (.ofBits 64) 0 65536).outcome = .error (.error e)) := by
  obtain ⟨hbuilt, hcrowded⟩ := longCascade_crowded
  have hne : (0 : Fin 65537) ≠ Fin.last 65536 := by decide
  have hfault : ((cascade 65537).solveBetween (.ofBits 64) 0 65536).outcome = .error (.fault .counterOverflow) :=
    solveBetween_crowded hne hcrowded
  refine ⟨.built hbuilt, ?_⟩
  rintro (⟨result, hok⟩ | ⟨e, herror⟩)
  · cases hfault.symm.trans hok
  · cases hfault.symm.trans herror

end MinCostFlow
