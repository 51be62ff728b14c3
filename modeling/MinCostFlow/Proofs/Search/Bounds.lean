/-
  MinCostFlow.Proofs.Search.Bounds — when no label of a search overflows.

  Say that no arc that a search may use costs more than `b` either way, and that `b` can be
  stored as many times over as there are vertices. Then two arguments bound what is
  calculated, whether or not it improves a label.
  - From above, no path is needed. A vertex that gets its first label costs at most `b`
    more than the dearest label so far, and improvements only make labels cheaper. So a
    label is within `b` for every labelled vertex but one (`Below`).
  - From below, the way through an arc costs what some walk from the source costs. A walk may
    have any number of arcs after many improvements, but without a cycle of negative cost it
    costs at least as much as a simple walk, which leaves each vertex once at most.

  Proved: a search that fails with an error has come to labels with a way that does not fit
  (`correct_stuck`), and in such a network there are none (`search_fits`).
-/

import MinCostFlow.Proofs.Search.Passes

namespace MinCostFlow

variable {n : Nat} {r : IntRange} {g : Network n} {labels : Labels n} {s u v : Fin n}
  {arcs : List (Fin n × Fin n)} {k : Nat} {l : Label n} {b : Int} {d : SolveError}

namespace Labels

variable {p q : Pass n}

/-! ## The dearest label -/

def reached (labels : Labels n) : Finset (Fin n) := Finset.univ.filter fun v => (labels.label v).isSome

theorem mem_reached : v ∈ labels.reached ↔ ∃ l, labels.label v = some l := by
  simp [reached, Option.isSome_iff_exists]

theorem reached_put (labels : Labels n) (v : Fin n) (l : Label n) :
    (labels.put v l).reached = insert v labels.reached := by
  ext x
  simp only [Finset.mem_insert, mem_reached, label_put]
  by_cases hx : v = x
  · simp [hx]
  · simp [hx, Ne.symm hx]

/-- A label costs `b` at most for every labelled vertex but one. -/
def Below (labels : Labels n) (b : Int) : Prop :=
  ∀ v l, labels.label v = some l → l.cost + b ≤ labels.reached.card * b

theorem start_below (s : Fin n) (b : Int) : (start s).Below b := by
  intro v l hl
  have hone : (start s).reached = {s} := by
    ext x
    rw [mem_reached, Finset.mem_singleton, label_start]
    by_cases hx : s = x
    · simp [hx]
    · simp [hx, Ne.symm hx]
  rw [label_start] at hl
  split at hl
  · obtain rfl := Option.some.inj hl
    simp [hone]
  · cases hl

theorem relax_below (hb : |g.cost u v| ≤ b) (hp : p.labels.Below b) (h : relax r g p u v = .ok q) :
    q.labels.Below b := by
  have habs := abs_le.mp hb
  rcases relax_cases h with ⟨-, rfl⟩ | ⟨l, hl, -, ⟨-, rfl⟩ | ⟨hn, rfl⟩⟩
  · exact hp
  · exact hp
  have hlu := hp u l hl
  intro x m hm
  simp only [Pass.take, reached_put, label_put] at hm ⊢
  by_cases hv : v ∈ p.labels.reached
  · -- an improvement: no vertex more is labelled, and the new label is cheaper than the old one
    rw [Finset.insert_eq_self.mpr hv]
    split at hm
    · obtain ⟨old, hold⟩ := mem_reached.mp hv
      have hbefore := hp v old hold
      have hcheaper := lt_of_not_within hn hold
      obtain rfl := Option.some.inj hm
      simp only
      omega
    · exact hp x m hm
  · rw [Finset.card_insert_of_notMem hv]
    push_cast
    rw [add_mul, one_mul]
    split at hm
    · obtain rfl := Option.some.inj hm
      simp only
      omega
    · have := hp x m hm
      omega

/-! ## Where a search fails with an error -/

/-- A way that does not fit. -/
def Stuck (r : IntRange) (g : Network n) (arcs : List (Fin n × Fin n)) (labels : Labels n) : Prop :=
  ∃ a ∈ arcs, ∃ l, labels.label a.1 = some l ∧ l.cost + g.cost a.1 a.2 ∉ r

theorem relaxes_stuck {P : Labels n → Prop}
    (hP : ∀ a ∈ arcs, ∀ p q, P p.labels → relax r g p a.1 a.2 = .ok q → P q.labels)
    (hp : P p.labels) (h : relaxes r g arcs p = .error (.error d)) :
    d = .overflow .costLabel ∧ ∃ x, P x ∧ Stuck r g arcs x := by
  induction arcs generalizing p with
  | nil => cases h
  | cons a arcs ih =>
    rcases bind_eq_error.mp h with h | ⟨q, hq, h⟩
    · rcases relax_eq_error.mp h with ⟨_, he, hd⟩ | ⟨_, -, -, hd⟩
      · obtain rfl := Failure.error.inj hd
        obtain ⟨⟨l, hl, hout⟩, rfl⟩ := improve_eq_error.mp he
        exact ⟨rfl, p.labels, hp, a, List.mem_cons_self .., l, hl, hout⟩
      · cases hd
    · have hpq := hP a (List.mem_cons_self ..) p q hp hq
      obtain ⟨hd, x, hx, b, hb, hout⟩ := ih (fun b hb => hP b (List.mem_cons_of_mem a hb)) hpq h
      exact ⟨hd, x, hx, b, List.mem_cons_of_mem a hb, hout⟩

end Labels

open Labels

namespace Network

/-- The only error of a search, and where it comes from. -/
theorem correct_stuck {P : Labels n → Prop}
    (hP : ∀ a ∈ arcs, ∀ p q, P p.labels → relax r g p a.1 a.2 = .ok q → P q.labels)
    (hl : P labels) (h : (correct r g arcs k labels).labels = .error (.error d)) :
    d = .overflow .costLabel ∧ ∃ x, P x ∧ Stuck r g arcs x := by
  induction k generalizing labels with
  | zero => cases h
  | succ k ih =>
    cases hp : relaxes r g arcs ⟨labels, 0⟩ with
    | error e =>
      rw [correct_failed hp] at h
      obtain rfl := Except.error.inj h
      exact relaxes_stuck hP hl hp
    | ok p =>
      by_cases h0 : p.improved = 0
      · rw [correct_last hp h0] at h
        cases h
      · rw [correct_next hp h0] at h
        exact ih (relaxes_keeps hP hp hl) h

theorem search_eq_error (h : (g.search r s).labels = .error (.error d)) : d = .overflow .costLabel :=
  (correct_stuck (P := fun _ => True) (fun _ _ _ _ _ _ => trivial) trivial h).1

section

variable (hcost : ∀ u v, Open g.residual u v → |g.cost u v| ≤ b) (hfit : n * b ≤ r.top)
  (hk : NoNegativeCycleFrom g.residual g.cost s)

include hcost hfit hk

/-- What is calculated for an open arc can be stored, be it an improvement or not. -/
theorem way_fits (hg : Grounded g s labels) (hbelow : labels.Below b) (ho : Open g.residual u v)
    (hl : labels.label u = some l) : l.cost + g.cost u v ∈ r := by
  have hb : 0 ≤ b := (abs_nonneg _).trans (hcost u v ho)
  have habs := abs_le.mp (hcost u v ho)
  have hupper := hbelow u l hl
  have hcard : (labels.reached.card : Int) * b ≤ n * b := by
    have hle : labels.reached.card ≤ n := labels.reached.card_le_univ.trans_eq (Fintype.card_fin n)
    exact mul_le_mul_of_nonneg_right (by exact_mod_cast hle) hb
  obtain ⟨w, hw, hc⟩ := hg.walk u l hl
  obtain ⟨y, hy, hs, hle⟩ := exists_simple_walk (hw.snoc ho)
  have hlower := hle g.cost hk
  simp only [costOf_append, hc, costOf_cons, costOf_nil, add_zero] at hlower
  have hsum := hs.sum_abs_le hb fun a ha => hcost a.1 a.2 (hy.isOpen a ha)
  have hsimple := abs_le.mp (abs_costOf_le.trans hsum)
  exact IntRange.mem_iff.mpr ⟨by omega, by omega⟩

theorem search_fits (hres : ∀ u v, 0 ≤ g.residual u v) : (g.search r s).labels ≠ .error (.error d) := by
  intro h
  have hkeep : ∀ a ∈ g.residualArcs, ∀ p q : Pass n, Grounded g s p.labels ∧ p.labels.Below b →
      relax r g p a.1 a.2 = .ok q → Grounded g s q.labels ∧ q.labels.Below b := by
    intro a ha p q hp hq
    have ho := (mem_residualArcs hres).mp ha
    exact ⟨relax_grounded ho hp.1 hq, relax_below (hcost a.1 a.2 ho) hp.2 hq⟩
  obtain ⟨-, x, ⟨hg, hbelow⟩, a, ha, l, hl, hout⟩ :=
    correct_stuck (P := fun x => Grounded g s x ∧ x.Below b) hkeep ⟨start_grounded g s, start_below s b⟩ h
  exact hout (way_fits hcost hfit hk hg hbelow ((mem_residualArcs hres).mp ha) hl)

end

end Network

end MinCostFlow
