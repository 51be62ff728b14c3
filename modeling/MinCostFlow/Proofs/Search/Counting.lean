/-
  MinCostFlow.Proofs.Search.Counting — which searches have too many improvements to count.

  Nothing but the early end of a search depends on the count of a pass. Without a count a pass
  does the same to the labels (`sweep`) and makes the same number of improvements (`gains`). If
  a counter holds that number the pass is the one without a count, and if not it ends with a
  fault at the first improvement too many (`relaxes_eq`). So there are two ways for a search:
  either some pass makes more improvements than can be counted, before any label has
  overflowed (`Crowded`), and the search ends with the fault (`search_crowded`); or it ends
  with the labels, or the overflow, of as many passes without a count as there are vertices,
  also if it has made fewer (`search_uncrowded`).

  An arc is improved along once in a pass. So for a search to be crowded there have to be as
  many arcs as a counter has numbers, and those take 46342 vertices (`Crowded.vertices`).
-/

import Mathlib.Data.Finset.Prod
import MinCostFlow.Proofs.Search.Passes

namespace MinCostFlow

open Labels

variable {n k : Nat} {r : IntRange} {g : Network n} {arcs : List (Fin n × Fin n)} {labels final : Labels n}
  {s : Fin n}

/-! ## One pass -/

namespace Labels

variable {p q : Pass n}

/-- A pass without a count. -/
def sweep (r : IntRange) (g : Network n) (arcs : List (Fin n × Fin n)) (labels : Labels n) :
    Except SolveError (Labels n) :=
  arcs.foldlM (fun labels (u, v) => (improve r g labels u v).map (·.getD labels)) labels

/-- The number of improvements of a pass, up to the first label that overflows. -/
def gains (r : IntRange) (g : Network n) : List (Fin n × Fin n) → Labels n → Nat
  | [], _ => 0
  | (u, v) :: arcs, labels =>
    match improve r g labels u v with
    | .error _ => 0
    | .ok none => gains r g arcs labels
    | .ok (some better) => gains r g arcs better + 1

theorem sweep_cons (a : Fin n × Fin n) (arcs : List (Fin n × Fin n)) (labels : Labels n) :
    sweep r g (a :: arcs) labels = ((improve r g labels a.1 a.2).map (·.getD labels) >>= sweep r g arcs) := rfl

/-- Arcs that come after others start from where those have ended. -/
theorem append_swept {front : List (Fin n × Fin n)} {reached : Labels n} (arcs : List (Fin n × Fin n))
    (h : sweep r g front labels = .ok reached) :
    sweep r g (front ++ arcs) labels = sweep r g arcs reached ∧
      gains r g (front ++ arcs) labels = gains r g front labels + gains r g arcs reached := by
  induction front generalizing labels with
  | nil =>
    obtain rfl := Except.ok.inj h
    exact ⟨rfl, (Nat.zero_add _).symm⟩
  | cons a front ih =>
    rw [sweep_cons] at h
    rw [List.cons_append, sweep_cons, gains, gains]
    cases hf : improve r g labels a.1 a.2 with
    | error d =>
      rw [hf] at h
      cases h
    | ok better? =>
      rw [hf] at h
      cases better? with
      | none => exact ih h
      | some better =>
        have hbetter : sweep r g front better = .ok reached := h
        obtain ⟨hsweep, hgains⟩ := ih hbetter
        refine ⟨hsweep, ?_⟩
        simp only [hgains]
        omega

theorem gains_le : gains r g arcs labels ≤ arcs.length := by
  induction arcs generalizing labels with
  | nil => exact le_rfl
  | cons a arcs ih =>
    rw [gains]
    cases improve r g labels a.1 a.2 with
    | error d => exact Nat.zero_le _
    | ok better? =>
      cases better? with
      | none => exact ih.trans (Nat.le_succ _)
      | some better => exact Nat.succ_le_succ ih

/-- A pass that counts is one that does not, while the counter holds what there is to count. -/
theorem relaxes_eq (hp : p.improved < counterLimit) : relaxes r g arcs p =
    if p.improved + gains r g arcs p.labels < counterLimit then
      orError ((sweep r g arcs p.labels).map fun final => ⟨final, p.improved + gains r g arcs p.labels⟩)
    else .error (.fault .counterOverflow) := by
  induction arcs generalizing p with
  | nil => exact (if_pos hp).symm
  | cons a arcs ih =>
    rw [relaxes_cons_eq, sweep_cons, gains]
    cases hf : improve r g p.labels a.1 a.2 with
    | error d =>
      have hstep : relax r g p a.1 a.2 = .error (.error d) := relax_eq_error.mpr (Or.inl ⟨d, hf, rfl⟩)
      rw [hstep]
      exact (if_pos hp).symm
    | ok better? =>
      cases better? with
      | none =>
        rw [bind_of_ok (relax_eq_ok.mpr (Or.inl ⟨hf, rfl⟩))]
        exact ih hp
      | some better =>
        have hsum : p.improved + (gains r g arcs better + 1) = p.improved + 1 + gains r g arcs better := by omega
        simp only [hsum]
        by_cases hc : p.improved + 1 < counterLimit
        · rw [bind_of_ok (relax_eq_ok.mpr (Or.inr ⟨better, hf, hc, rfl⟩))]
          exact ih hc
        · have hstep : relax r g p a.1 a.2 = .error (.fault .counterOverflow) :=
            relax_eq_error.mpr (Or.inr ⟨better, hf, not_lt.mp hc, rfl⟩)
          rw [hstep, if_neg (by omega)]
          rfl

theorem relaxes_crowded (h : counterLimit ≤ gains r g arcs labels) :
    relaxes r g arcs ⟨labels, 0⟩ = .error (.fault .counterOverflow) := by
  rw [relaxes_eq (Nat.zero_lt_of_lt one_lt_counterLimit)]
  exact if_neg (by simpa using h)

theorem relaxes_uncrowded (h : gains r g arcs labels < counterLimit) : relaxes r g arcs ⟨labels, 0⟩ =
    orError ((sweep r g arcs labels).map fun final => ⟨final, gains r g arcs labels⟩) := by
  rw [relaxes_eq (Nat.zero_lt_of_lt one_lt_counterLimit)]
  simp only [Nat.zero_add, if_pos h]

end Labels

/-! ## A search -/

namespace Network

/-- Passes without a count, none of which ends the search. -/
def sweeps (r : IntRange) (g : Network n) (arcs : List (Fin n × Fin n)) :
    (passes : Nat) → Labels n → Except SolveError (Labels n)
  | 0, labels => .ok labels
  | passes + 1, labels => sweep r g arcs labels >>= sweeps r g arcs passes

/-- One of the passes has more improvements than a counter holds. -/
def Overcounts (r : IntRange) (g : Network n) (arcs : List (Fin n × Fin n)) (passes : Nat) (labels : Labels n) : Prop :=
  ∃ k < passes, ∃ reached, sweeps r g arcs k labels = .ok reached ∧ counterLimit ≤ gains r g arcs reached

/-- A search from `source` has too many improvements to count in one of its passes. -/
def Crowded (r : IntRange) (g : Network n) (source : Fin n) : Prop :=
  Overcounts r g g.residualArcs n (Labels.start source)

theorem overcounts_succ : Overcounts r g arcs (k + 1) labels ↔
    counterLimit ≤ gains r g arcs labels ∨ ∃ final, sweep r g arcs labels = .ok final ∧ Overcounts r g arcs k final := by
  constructor
  · rintro ⟨j, hj, reached, hreached, hcount⟩
    cases j with
    | zero =>
      obtain rfl := Except.ok.inj hreached
      exact Or.inl hcount
    | succ j =>
      obtain ⟨final, hfinal, hrest⟩ := bind_eq_ok.mp hreached
      exact Or.inr ⟨final, hfinal, j, Nat.lt_of_succ_lt_succ hj, reached, hrest, hcount⟩
  · rintro (hcount | ⟨final, hfinal, j, hj, reached, hrest, hcount⟩)
    · exact ⟨0, Nat.succ_pos k, labels, rfl, hcount⟩
    · exact ⟨j + 1, Nat.succ_lt_succ hj, reached, bind_eq_ok.mpr ⟨final, hfinal, hrest⟩, hcount⟩

/-- After a pass that improves nothing come only such passes. -/
theorem sweeps_idle (h : sweep r g arcs labels = .ok labels) (k : Nat) : sweeps r g arcs k labels = .ok labels := by
  induction k with
  | zero => rfl
  | succ k ih => rw [sweeps, bind_of_ok h, ih]

theorem correct_crowded (h : Overcounts r g arcs k labels) :
    (correct r g arcs k labels).labels = .error (.fault .counterOverflow) := by
  induction k generalizing labels with
  | zero =>
    obtain ⟨_, hj, -⟩ := h
    exact absurd hj (Nat.not_lt_zero _)
  | succ k ih =>
    by_cases hcount : counterLimit ≤ gains r g arcs labels
    · rw [correct_failed (relaxes_crowded hcount)]
    · obtain ⟨final, hfinal, hrest⟩ := (overcounts_succ.mp h).resolve_left hcount
      have hpass := relaxes_uncrowded (not_le.mp hcount)
      rw [hfinal] at hpass
      by_cases h0 : gains r g arcs labels = 0
      · -- the labels are those from before, and neither this pass nor any other has improvements
        obtain rfl : final = labels := congrArg Pass.labels ((relaxes_improved hpass).2 h0)
        obtain ⟨j, -, reached, hreached, hcount'⟩ := hrest
        obtain rfl := Except.ok.inj ((sweeps_idle hfinal j).symm.trans hreached)
        exact absurd hcount' hcount
      · rw [correct_next hpass h0]
        exact ih hrest

theorem correct_uncrowded (h : ¬Overcounts r g arcs k labels) :
    (correct r g arcs k labels).labels = orError (sweeps r g arcs k labels) := by
  induction k generalizing labels with
  | zero => rfl
  | succ k ih =>
    rw [overcounts_succ, not_or, not_le] at h
    have hpass := relaxes_uncrowded h.1
    rw [sweeps]
    cases hfinal : sweep r g arcs labels with
    | error d =>
      rw [hfinal] at hpass
      rw [correct_failed hpass]
      rfl
    | ok final =>
      rw [hfinal] at hpass
      by_cases h0 : gains r g arcs labels = 0
      · obtain rfl : final = labels := congrArg Pass.labels ((relaxes_improved hpass).2 h0)
        rw [correct_last hpass h0]
        show _ = orError (sweeps r g arcs k final)
        rw [sweeps_idle hfinal]
        rfl
      · rw [correct_next hpass h0]
        exact ih fun hrest => h.2 ⟨final, hfinal, hrest⟩

theorem search_crowded (h : Crowded r g s) : (g.search r s).labels = .error (.fault .counterOverflow) :=
  correct_crowded h

theorem search_uncrowded (h : ¬Crowded r g s) :
    (g.search r s).labels = orError (sweeps r g g.residualArcs n (start s)) :=
  correct_uncrowded h

/-- The only fault of a search, and just where it occurs. -/
theorem search_fault_iff {f : Fault} : (g.search r s).labels = .error (.fault f) ↔ .counterOverflow = f ∧ Crowded r g s := by
  constructor
  · intro h
    by_cases hc : Crowded r g s
    · rw [search_crowded hc] at h
      exact ⟨Failure.fault.inj (Except.error.inj h), hc⟩
    · rw [search_uncrowded hc, orError_eq_error] at h
      obtain ⟨_, -, h⟩ := h
      cases h
  · rintro ⟨rfl, hc⟩
    exact search_crowded hc

theorem length_residualArcs_le (g : Network n) : g.residualArcs.length ≤ n * n - n := by
  have hnd : g.residualArcs.Nodup := by
    refine (Matrix.pairsWhere_sorted _).imp ?_
    rintro a b hab rfl
    simp at hab
  have hsub : g.residualArcs.toFinset ⊆ (Finset.univ : Finset (Fin n)).offDiag := by
    intro a ha
    have hm := Matrix.mem_pairsWhere.mp (List.mem_toFinset.mp ha)
    simp only [Bool.and_eq_true, bne_iff_ne] at hm
    simpa using hm.1
  have hle := Finset.card_le_card hsub
  rwa [List.toFinset_card_of_nodup hnd, Finset.offDiag_card, Finset.card_univ, Fintype.card_fin] at hle

/-- A network without that many vertices has fewer arcs than can be counted. -/
theorem Crowded.vertices (h : Crowded r g s) : 46342 ≤ n := by
  obtain ⟨_, -, reached, -, hcount⟩ := h
  have harcs : counterLimit ≤ n * n - n := hcount.trans (gains_le.trans g.length_residualArcs_le)
  by_contra hn
  have hsq : n * n - n ≤ 46341 * 46340 := by
    rw [← Nat.mul_sub_one]
    exact Nat.mul_le_mul (by omega) (by omega)
  simp only [counterLimit] at harcs
  omega

end Network

end MinCostFlow
