/-
  MinCostFlow.Proofs.Unreached.Search — searches do not look beyond what can be reached.

  A search goes over all pairs that something is left on, also over those that leave vertices
  which it never comes to. Such a vertex has no label, so relaxing an arc that leaves it does
  nothing: nothing is added to a label that is not there, nothing can overflow, and nothing is
  counted (`relax_outside`). What labels there are stay on the set where the search began, as no arc
  leads out of it (`relax_inside`). So a pass is one over the arcs that leave members of the
  set alone (`relaxes_filter`), and of the costs only theirs are read.

  Proved: on networks that are alike on a set, searches from one of its vertices are the same,
  the counts of their improvements and their overflows included (`Alike.search_eq`).
-/

import MinCostFlow.Proofs.Unreached.Basic

namespace MinCostFlow

variable {n k : Nat} {r : IntRange} {g h : Network n} {s u v : Fin n} {inside : Finset (Fin n)}
  {arcs : List (Fin n × Fin n)} {labels : Labels n}

namespace Labels

variable {p q : Pass n}

/-- Only vertices of `inside` have labels. -/
def StayIn (inside : Finset (Fin n)) (labels : Labels n) : Prop := ∀ v, labels.label v ≠ none → v ∈ inside

theorem start_stayIn (hs : s ∈ inside) : (start s).StayIn inside := by
  intro v hv
  rw [label_start] at hv
  split at hv
  · rename_i hsv
    rwa [← hsv]
  · exact absurd rfl hv

theorem relax_outside (hp : p.labels.StayIn inside) (hu : u ∉ inside) : relax r g p u v = .ok p := by
  have hnone : p.labels.label u = none := by
    by_contra hl
    exact hu (hp u hl)
  refine relax_eq_ok.mpr (Or.inl ⟨improve_eq_none.mpr fun l hl => ?_, rfl⟩)
  cases hnone.symm.trans hl

theorem relax_inside (hv : v ∈ inside) (hp : p.labels.StayIn inside) (hq : relax r g p u v = .ok q) :
    q.labels.StayIn inside := by
  rcases relax_cases hq with ⟨-, rfl⟩ | ⟨l, -, -, ⟨-, rfl⟩ | ⟨-, rfl⟩⟩
  · exact hp
  · exact hp
  intro x hx
  simp only [Pass.take, label_put] at hx
  split at hx
  · rename_i hvx
    rwa [← hvx]
  · exact hp x hx

theorem relax_congr (hcost : g.cost u v = h.cost u v) (p : Pass n) : relax r g p u v = relax r h p u v := by
  unfold relax improve
  rw [hcost]

theorem relaxes_congr (hcost : ∀ a ∈ arcs, g.cost a.1 a.2 = h.cost a.1 a.2) (p : Pass n) :
    relaxes r g arcs p = relaxes r h arcs p :=
  foldlM_congr (fun a ha => relax_congr (hcost a ha)) p

/-- Arcs that leave other vertices can be left out. -/
theorem relaxes_filter (hclosed : ∀ a ∈ arcs, a.1 ∈ inside → a.2 ∈ inside) (hp : p.labels.StayIn inside) :
    relaxes r g arcs p = relaxes r g (arcs.filter (·.1 ∈ inside)) p := by
  induction arcs generalizing p with
  | nil => rfl
  | cons a arcs ih =>
    have hrest := fun b hb => hclosed b (List.mem_cons_of_mem a hb)
    rw [relaxes_cons_eq]
    by_cases ha : a.1 ∈ inside
    · rw [List.filter_cons_of_pos (by simpa using ha), relaxes_cons_eq]
      cases hm : relax r g p a.1 a.2 with
      | error e => rfl
      | ok m => exact ih hrest (relax_inside (hclosed a (List.mem_cons_self ..) ha) hp hm)
    · rw [List.filter_cons_of_neg (by simpa using ha), relax_outside hp ha]
      exact ih hrest hp

end Labels

open Labels

namespace Alike

variable (hgh : Alike r inside g h)

include hgh

theorem residualArcs_closed {a : Fin n × Fin n} (ha : a ∈ g.residualArcs) (hin : a.1 ∈ inside) : a.2 ∈ inside :=
  hgh.left.closed a.1 a.2 hin ((Network.mem_residualArcs hgh.left.sound.residual_nonneg).mp ha)

theorem residualArcs_filter : g.residualArcs.filter (·.1 ∈ inside) = h.residualArcs.filter (·.1 ∈ inside) := by
  unfold Network.residualArcs
  rw [Matrix.filter_pairsWhere, Matrix.filter_pairsWhere]
  congr 1
  funext u v
  by_cases hu : u ∈ inside
  · by_cases huv : u = v
    · simp [huv]
    · rw [hgh.residual u v hu huv]
  · simp [hu]

theorem relaxAll_eq (hl : labels.StayIn inside) :
    relaxAll r g g.residualArcs labels = relaxAll r h h.residualArcs labels := by
  have hclosed : ∀ a ∈ h.residualArcs, a.1 ∈ inside → a.2 ∈ inside := by
    intro a ha hin
    have hmem : a ∈ h.residualArcs.filter (·.1 ∈ inside) := List.mem_filter.mpr ⟨ha, by simpa using hin⟩
    rw [← hgh.residualArcs_filter] at hmem
    exact hgh.residualArcs_closed (List.mem_filter.mp hmem).1 hin
  have hcost : ∀ a ∈ g.residualArcs.filter (·.1 ∈ inside), g.cost a.1 a.2 = h.cost a.1 a.2 := by
    intro a ha
    obtain ⟨ha, hin⟩ := List.mem_filter.mp ha
    have ho := (Network.mem_residualArcs hgh.left.sound.residual_nonneg).mp ha
    exact hgh.cost a.1 a.2 (by simpa using hin) ho
  calc relaxAll r g g.residualArcs labels
      = relaxes r g (g.residualArcs.filter (·.1 ∈ inside)) ⟨labels, 0⟩ :=
        relaxes_filter (fun a ha => hgh.residualArcs_closed ha) hl
    _ = relaxes r h (g.residualArcs.filter (·.1 ∈ inside)) ⟨labels, 0⟩ := relaxes_congr hcost _
    _ = relaxes r h (h.residualArcs.filter (·.1 ∈ inside)) ⟨labels, 0⟩ := by rw [hgh.residualArcs_filter]
    _ = relaxAll r h h.residualArcs labels := (relaxes_filter hclosed hl).symm

theorem correct_eq (hl : labels.StayIn inside) :
    g.correct r g.residualArcs k labels = h.correct r h.residualArcs k labels := by
  induction k generalizing labels with
  | zero => rfl
  | succ k ih =>
    simp only [Network.correct, ← hgh.relaxAll_eq hl]
    cases hp : relaxAll r g g.residualArcs labels with
    | error e => rfl
    | ok p =>
      have hstay : p.labels.StayIn inside := by
        rw [Labels.relaxAll_eq, relaxes_filter (fun a ha => hgh.residualArcs_closed ha) hl] at hp
        refine relaxes_keeps (P := StayIn inside) ?_ hp hl
        intro a ha _ _ hx hr
        obtain ⟨ha, hin⟩ := List.mem_filter.mp ha
        exact relax_inside (hgh.residualArcs_closed ha (by simpa using hin)) hx hr
      simp only [ih hstay]

theorem search_eq (hs : s ∈ inside) : g.search r s = h.search r s := hgh.correct_eq (start_stayIn hs)

end Alike

end MinCostFlow
