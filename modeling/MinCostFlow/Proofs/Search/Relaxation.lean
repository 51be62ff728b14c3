/-
  MinCostFlow.Proofs.Search.Relaxation — what relaxing arcs does to the labels.

  Relaxing `u -> v` either leaves the labels alone, or gives `v` a cheaper label with
  parent `u` (`relax_cases`); all else follows from that. It fails where the way through `u`
  cannot be stored, or with an improvement too many to count (`relax_eq_error`). Labels are
  compared by the costs they stay within (`Within`): a label never gets dearer, and after an
  arc was relaxed its head stays within what its tail stayed within, plus the cost of the arc.

  Proved: what a sequence of relaxations does (`relaxes_within`, `relaxes_offer`), that one
  without an improvement changes nothing (`relaxes_improved`), and how a search goes on from
  pass to pass (`correct_failed`, `correct_last`, `correct_next`). The labels are grounded
  at any point of a search (`Grounded`, `relax_grounded`): every label is the cost of a walk
  from the source, and every parent has a label that explains its child's.
-/

import MinCostFlow.Path.Cheapest
import MinCostFlow.Proofs.Walk.Cost

namespace MinCostFlow.Labels

variable {n : Nat} {r : IntRange} {g : Network n} {p q : Pass n} {labels : Labels n}
  {s u v x : Fin n} {b c : Int} {e : Failure SolveError}

/-- `v` is labelled with `c` or less. -/
def Within (labels : Labels n) (v : Fin n) (c : Int) : Prop :=
  ∃ l, labels.label v = some l ∧ l.cost ≤ c

theorem Within.mono (h : labels.Within v b) (hbc : b ≤ c) : labels.Within v c := by
  obtain ⟨l, hl, hb⟩ := h
  exact ⟨l, hl, hb.trans hbc⟩

/-- A vertex has one label. -/
theorem Within.le {l : Label n} (h : labels.Within v c) (hl : labels.label v = some l) : l.cost ≤ c := by
  obtain ⟨l', hl', hc⟩ := h
  obtain rfl := Option.some.inj (hl.symm.trans hl')
  exact hc

theorem lt_of_not_within {l : Label n} (h : ¬labels.Within v c) (hl : labels.label v = some l) : c < l.cost := by
  by_contra hle
  exact h ⟨l, hl, not_lt.mp hle⟩

theorem improves_iff : improves c (labels.label v) = true ↔ ¬labels.Within v c := by
  simp only [Within]
  cases labels.label v with
  | none => simp [improves]
  | some l => simp [improves]

theorem within_put {l : Label n} :
    (labels.put u l).Within v c ↔ if u = v then l.cost ≤ c else labels.Within v c := by
  simp only [Within, label_put]
  by_cases h : u = v <;> simp [h]

/-! ## One relaxation -/

theorem improve_eq_none : improve r g labels u v = .ok none ↔
    ∀ l, labels.label u = some l → l.cost + g.cost u v ∈ r ∧ labels.Within v (l.cost + g.cost u v) := by
  unfold improve
  cases labels.label u with
  | none => simp [pure_eq_ok]
  | some l =>
    simp only [bind_eq_ok, IntRange.require_eq_ok, Option.some.injEq, forall_eq']
    constructor
    · rintro ⟨_, ⟨hr, rfl⟩, h⟩
      split at h
      · cases h
      · rename_i hi
        rw [improves_iff, not_not] at hi
        exact ⟨hr, hi⟩
    · rintro ⟨hr, hw⟩
      refine ⟨_, ⟨hr, rfl⟩, if_neg ?_⟩
      rwa [improves_iff, not_not]

theorem improve_eq_some {final : Labels n} : improve r g labels u v = .ok (some final) ↔
    ∃ l, labels.label u = some l ∧ l.cost + g.cost u v ∈ r ∧ ¬labels.Within v (l.cost + g.cost u v) ∧
      labels.put v ⟨l.cost + g.cost u v, some u⟩ = final := by
  unfold improve
  cases labels.label u with
  | none => simp [pure_eq_ok]
  | some l =>
    simp only [bind_eq_ok, IntRange.require_eq_ok, Option.some.injEq, exists_eq_left']
    constructor
    · rintro ⟨_, ⟨hr, rfl⟩, h⟩
      split at h
      · rename_i hi
        exact ⟨hr, improves_iff.mp hi, Option.some.inj (pure_eq_ok.mp h)⟩
      · cases h
    · rintro ⟨hr, hw, rfl⟩
      exact ⟨_, ⟨hr, rfl⟩, if_pos (improves_iff.mpr hw)⟩

theorem improve_eq_error {d : SolveError} : improve r g labels u v = .error d ↔
    (∃ l, labels.label u = some l ∧ l.cost + g.cost u v ∉ r) ∧ .overflow .costLabel = d := by
  unfold improve
  cases labels.label u with
  | none => simp [pure, Except.pure]
  | some l =>
    simp only [bind_eq_error, IntRange.require_eq_error, Option.some.injEq, exists_eq_left']
    constructor
    · rintro (h | ⟨_, -, h⟩)
      · exact h
      · split at h <;> cases h
    · exact Or.inl

theorem relax_eq_ok : relax r g p u v = .ok q ↔
    improve r g p.labels u v = .ok none ∧ p = q ∨
    ∃ final, improve r g p.labels u v = .ok (some final) ∧ p.improved + 1 < counterLimit ∧
      ⟨final, p.improved + 1⟩ = q := by
  simp only [relax, bind_eq_ok, orError_eq_ok]
  constructor
  · rintro ⟨final?, hf, h⟩
    cases final? with
    | none => exact Or.inl ⟨hf, pure_eq_ok.mp h⟩
    | some final =>
      simp only [bind_eq_ok, demand_eq_ok, pure_eq_ok] at h
      obtain ⟨_, hc, rfl⟩ := h
      exact Or.inr ⟨final, hf, hc, rfl⟩
  · rintro (⟨hf, rfl⟩ | ⟨final, hf, hc, rfl⟩)
    · exact ⟨none, hf, rfl⟩
    · exact ⟨some final, hf, bind_eq_ok.mpr ⟨(), demand_eq_ok.mpr hc, rfl⟩⟩

theorem relax_eq_error : relax r g p u v = .error e ↔
    (∃ d, improve r g p.labels u v = .error d ∧ .error d = e) ∨
    ∃ final, improve r g p.labels u v = .ok (some final) ∧ counterLimit ≤ p.improved + 1 ∧
      .fault .counterOverflow = e := by
  simp only [relax, bind_eq_error, orError_eq_ok, orError_eq_error]
  refine or_congr_right ?_
  constructor
  · rintro ⟨final?, hf, h⟩
    cases final? with
    | none => cases h
    | some final =>
      rcases bind_eq_error.mp h with h | ⟨_, -, h⟩
      · obtain ⟨hc, rfl⟩ := demand_eq_error.mp h
        exact ⟨final, hf, not_lt.mp hc, rfl⟩
      · cases h
  · rintro ⟨final, hf, hc, rfl⟩
    exact ⟨some final, hf, bind_eq_error.mpr (Or.inl (demand_eq_error.mpr ⟨not_lt.mpr hc, rfl⟩))⟩

/-- The way to `v` through `u`, at cost `c`, is taken. -/
def Pass.take (p : Pass n) (u v : Fin n) (c : Int) : Pass n :=
  ⟨p.labels.put v ⟨c, some u⟩, p.improved + 1⟩

theorem relax_cases (h : relax r g p u v = .ok q) :
    (p.labels.label u = none ∧ q = p) ∨
    ∃ l, p.labels.label u = some l ∧ l.cost + g.cost u v ∈ r ∧
      (p.labels.Within v (l.cost + g.cost u v) ∧ q = p ∨
        ¬p.labels.Within v (l.cost + g.cost u v) ∧ q = p.take u v (l.cost + g.cost u v)) := by
  rcases relax_eq_ok.mp h with ⟨hf, rfl⟩ | ⟨final, hf, -, rfl⟩
  · rw [improve_eq_none] at hf
    cases hl : p.labels.label u with
    | none => exact Or.inl ⟨rfl, rfl⟩
    | some l =>
      obtain ⟨hr, hw⟩ := hf l hl
      exact Or.inr ⟨l, rfl, hr, Or.inl ⟨hw, rfl⟩⟩
  · obtain ⟨l, hl, hr, hw, rfl⟩ := improve_eq_some.mp hf
    exact Or.inr ⟨l, hl, hr, Or.inr ⟨hw, rfl⟩⟩

theorem take_within (hc : ¬p.labels.Within v c) (h : p.labels.Within x b) :
    (p.take u v c).labels.Within x b := by
  simp only [Pass.take, within_put]
  split
  · rename_i hv
    obtain ⟨l, hl, hb⟩ := h
    have := lt_of_not_within hc (hv ▸ hl)
    omega
  · exact h

theorem relax_within (h : relax r g p u v = .ok q) (hx : p.labels.Within x b) :
    q.labels.Within x b := by
  rcases relax_cases h with ⟨-, rfl⟩ | ⟨l, -, -, ⟨-, rfl⟩ | ⟨hn, rfl⟩⟩
  · exact hx
  · exact hx
  · exact take_within hn hx

theorem relax_offer (h : relax r g p u v = .ok q) (hu : p.labels.Within u b) :
    q.labels.Within v (b + g.cost u v) := by
  rcases relax_cases h with ⟨hn, -⟩ | ⟨l, hl, -, h⟩
  · obtain ⟨l, hl, -⟩ := hu
    simp [hn] at hl
  have hb := hu.le hl
  rcases h with ⟨hv, rfl⟩ | ⟨-, rfl⟩
  · exact hv.mono (by omega)
  · simp only [Pass.take, within_put, if_true]
    omega

theorem relax_improved (h : relax r g p u v = .ok q) :
    q = p ∨ q.improved = p.improved + 1 := by
  rcases relax_cases h with ⟨-, rfl⟩ | ⟨l, -, -, ⟨-, rfl⟩ | ⟨-, rfl⟩⟩
  · exact Or.inl rfl
  · exact Or.inl rfl
  · exact Or.inr rfl

/-! ## Relaxing arcs one after the other -/

variable {arcs : List (Fin n × Fin n)}

def relaxes (r : IntRange) (g : Network n) (arcs : List (Fin n × Fin n)) (p : Pass n) :
    Except (Failure SolveError) (Pass n) :=
  arcs.foldlM (fun p (u, v) => relax r g p u v) p

theorem relaxAll_eq : relaxAll r g arcs labels = relaxes r g arcs ⟨labels, 0⟩ := rfl

theorem relaxes_cons_eq (a : Fin n × Fin n) (arcs : List (Fin n × Fin n)) (p : Pass n) :
    relaxes r g (a :: arcs) p = (relax r g p a.1 a.2 >>= relaxes r g arcs) := rfl

theorem relaxes_cons :
    relaxes r g ((u, v) :: arcs) p = .ok q ↔
      ∃ m, relax r g p u v = .ok m ∧ relaxes r g arcs m = .ok q := by
  rw [relaxes_cons_eq, bind_eq_ok]

/-- What every relaxation keeps, a sequence of them keeps. -/
theorem relaxes_keeps {P : Labels n → Prop}
    (hP : ∀ a ∈ arcs, ∀ p q, P p.labels → relax r g p a.1 a.2 = .ok q → P q.labels)
    (h : relaxes r g arcs p = .ok q) (hp : P p.labels) : P q.labels := by
  induction arcs generalizing p with
  | nil =>
    obtain rfl := Except.ok.inj h
    exact hp
  | cons a arcs ih =>
    obtain ⟨m, hm, h⟩ := relaxes_cons.mp h
    have hpm := hP a (List.mem_cons_self ..) p m hp hm
    exact ih (fun b hb => hP b (List.mem_cons_of_mem a hb)) h hpm

theorem relaxes_within (h : relaxes r g arcs p = .ok q) (hx : p.labels.Within x b) :
    q.labels.Within x b :=
  relaxes_keeps (P := fun l => l.Within x b) (fun _ _ _ _ hp hr => relax_within hr hp) h hx

theorem relaxes_offer (h : relaxes r g arcs p = .ok q) {a : Fin n × Fin n} (ha : a ∈ arcs)
    (hu : p.labels.Within a.1 b) : q.labels.Within a.2 (b + g.cost a.1 a.2) := by
  induction arcs generalizing p with
  | nil => cases ha
  | cons a' arcs ih =>
    obtain ⟨m, hm, hq⟩ := relaxes_cons.mp h
    rcases List.mem_cons.mp ha with rfl | ha
    · exact relaxes_within hq (relax_offer hm hu)
    · exact ih hq ha (relax_within hm hu)

theorem relaxes_improved (h : relaxes r g arcs p = .ok q) :
    p.improved ≤ q.improved ∧ (q.improved = p.improved → q = p) := by
  induction arcs generalizing p with
  | nil =>
    obtain rfl := Except.ok.inj h
    exact ⟨le_rfl, fun _ => rfl⟩
  | cons a arcs ih =>
    obtain ⟨m, hm, h⟩ := relaxes_cons.mp h
    obtain ⟨hle, heq⟩ := ih h
    rcases relax_improved hm with rfl | hi
    · exact ⟨hle, heq⟩
    · exact ⟨by omega, fun he => by omega⟩

/-! ## Pass after pass -/

section

variable {k : Nat}

theorem correct_failed (h : relaxes r g arcs ⟨labels, 0⟩ = .error e) :
    g.correct r arcs (k + 1) labels = ⟨[], .error e⟩ := by
  rw [Network.correct, relaxAll_eq, h]

theorem correct_last (h : relaxes r g arcs ⟨labels, 0⟩ = .ok p) (h0 : p.improved = 0) :
    g.correct r arcs (k + 1) labels = ⟨[0], .ok p.labels⟩ := by
  rw [Network.correct, relaxAll_eq, h]
  exact if_pos h0

theorem correct_next (h : relaxes r g arcs ⟨labels, 0⟩ = .ok p) (h0 : p.improved ≠ 0) :
    g.correct r arcs (k + 1) labels =
      ⟨p.improved :: (g.correct r arcs k p.labels).improvements, (g.correct r arcs k p.labels).labels⟩ := by
  rw [Network.correct, relaxAll_eq, h]
  exact if_neg h0

end

/-! ## Where labels come from -/

/-- Every label is the cost of a walk from `s`, and was found through its parent, whose
own label may have got cheaper since. -/
structure Grounded (g : Network n) (s : Fin n) (labels : Labels n) : Prop where
  source : labels.Within s 0
  root : ∀ v l, labels.label v = some l → l.parent = none → v = s ∧ l.cost = 0
  walk : ∀ v l, labels.label v = some l → ∃ w, Walk g.residual s w v ∧ costOf g.cost w = l.cost
  parent : ∀ v l u, labels.label v = some l → l.parent = some u →
    Open g.residual u v ∧ labels.Within u (l.cost - g.cost u v)

/-- What a vertex is labelled with, or nothing. -/
def costAt (labels : Labels n) (v : Fin n) : Int := ((labels.label v).map (·.cost)).getD 0

theorem costAt_eq {l : Label n} (h : labels.label v = some l) : labels.costAt v = l.cost := by simp [costAt, h]

/-- Every arc goes down from a parent to its child. -/
def Descends (labels : Labels n) (w : List (Fin n × Fin n)) : Prop :=
  ∀ a ∈ w, ∃ l, labels.label a.2 = some l ∧ l.parent = some a.1

/-- A search goes down along open arcs. -/
theorem Grounded.isOpen {w : List (Fin n × Fin n)} (h : Grounded g s labels) (hd : labels.Descends w) :
    ∀ a ∈ w, Open g.residual a.1 a.2 := by
  intro a ha
  obtain ⟨l, hl, hp⟩ := hd a ha
  exact (h.parent a.2 l a.1 hl hp).1

/-- Away from the source a label has been found through some parent. -/
theorem Grounded.exists_parent {l : Label n} (h : Grounded g s labels) (hl : labels.label v = some l) (hv : v ≠ s) :
    ∃ u, l.parent = some u := by
  cases hp : l.parent with
  | none => exact absurd (h.root v l hl hp).1 hv
  | some u => exact ⟨u, rfl⟩

theorem start_grounded (g : Network n) (s : Fin n) : Grounded g s (start s) := by
  have hl : ∀ v l, (start s).label v = some l → v = s ∧ l = ⟨0, none⟩ := by
    intro v l h
    rw [label_start] at h
    split at h
    · exact ⟨(‹s = v›).symm, (Option.some.inj h).symm⟩
    · cases h
  refine ⟨⟨⟨0, none⟩, by simp [label_start], le_rfl⟩, ?_, ?_, ?_⟩
  · intro v l h _
    obtain ⟨rfl, rfl⟩ := hl v l h
    exact ⟨rfl, rfl⟩
  · intro v l h
    obtain ⟨rfl, rfl⟩ := hl v l h
    exact ⟨[], .nil, rfl⟩
  · intro v l u h hp
    obtain ⟨rfl, rfl⟩ := hl v l h
    cases hp

theorem relax_grounded (ho : Open g.residual u v) (hp : Grounded g s p.labels)
    (h : relax r g p u v = .ok q) : Grounded g s q.labels := by
  rcases relax_cases h with ⟨-, rfl⟩ | ⟨l, hl, -, ⟨-, rfl⟩ | ⟨hn, rfl⟩⟩
  · exact hp
  · exact hp
  -- only the label of `v` is new; the others are as before, and the parents among them no dearer
  have keep := fun x b => take_within (u := u) (x := x) (b := b) hn
  refine ⟨keep _ _ hp.source, fun x m hm hr => ?_, fun x m hm => ?_, fun x m y hm hy => ?_⟩
  all_goals
    simp only [Pass.take, label_put] at hm
    split at hm
  · obtain rfl := Option.some.inj hm
    cases hr
  · exact hp.root x m hm hr
  · obtain rfl := Option.some.inj hm
    obtain ⟨w, hw, hc⟩ := hp.walk u l hl
    rename_i hv
    exact ⟨w ++ [(u, v)], hv ▸ hw.snoc ho, by simp [hc]⟩
  · exact hp.walk x m hm
  · obtain rfl := Option.some.inj hm
    obtain rfl := Option.some.inj hy
    rename_i hv
    exact ⟨hv ▸ ho, keep _ _ ⟨l, hl, by simp only [← hv]; omega⟩⟩
  · obtain ⟨hxy, hw⟩ := hp.parent x m y hm hy
    exact ⟨hxy, keep _ _ hw⟩

end MinCostFlow.Labels
