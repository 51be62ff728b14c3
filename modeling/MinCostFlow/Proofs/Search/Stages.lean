/-
  MinCostFlow.Proofs.Search.Stages — what is true at any point of a search.

  A search is looked at before its first relaxation and after each one, be it in the middle
  of a pass or at its end (`stages`). Whatever becomes of the search, all that a relaxation
  keeps is true at each stage (`stages_keep`): with a cycle of negative cost the labels fall
  until the passes run out, and a failure ends the stages in the middle of a pass, with the
  last labels that were written (`stages_search`, `stages_failed`).

  A label costs what its parent's did, when it was found, and the arc between them. The
  parent may have been improved since, so what remains is an inequality. It is strict where
  an improvement closes a cycle of parents, which therefore has a negative cost.

  Proved, of every network that callers can come to: at each stage the predecessors explain
  the labels, and what a search answers is read off its last stage (`stages_explained`).
-/

import MinCostFlow.Proofs.Search.Bounds
import MinCostFlow.Proofs.Search.Cheapest
import MinCostFlow.Proofs.Search.Parents

namespace MinCostFlow

open Labels

variable {n : Nat} {r : IntRange} {g : Network n} {arcs : List (Fin n × Fin n)} {labels final : Labels n}
  {s : Fin n} {k : Nat}

/-! ## The stages of a pass -/

namespace Labels

variable {p q : Pass n} {P : Labels n → Prop}

/-- The labels after each relaxation, up to the first that overflows or cannot be counted. A label is
written before it is counted. -/
def relaxStages (r : IntRange) (g : Network n) : List (Fin n × Fin n) → Pass n → List (Labels n)
  | [], _ => []
  | (u, v) :: arcs, p =>
    match improve r g p.labels u v with
    | .error _ => []
    | .ok better? =>
      better?.getD p.labels ::
        match relax r g p u v with
        | .error _ => []
        | .ok q => relaxStages r g arcs q

section

variable {a : Fin n × Fin n} {d : SolveError} {better : Labels n}

theorem relaxStages_cons (h : relax r g p a.1 a.2 = .ok q) :
    relaxStages r g (a :: arcs) p = q.labels :: relaxStages r g arcs q := by
  rw [relaxStages, h]
  rcases relax_eq_ok.mp h with ⟨hf, rfl⟩ | ⟨better, hf, -, rfl⟩
  · rw [hf]
    rfl
  · rw [hf]
    rfl

theorem relaxStages_overflow (h : improve r g p.labels a.1 a.2 = .error d) : relaxStages r g (a :: arcs) p = [] := by
  rw [relaxStages, h]

theorem relaxStages_uncounted (h : improve r g p.labels a.1 a.2 = .ok (some better)) (hc : counterLimit ≤ p.improved + 1) :
    relaxStages r g (a :: arcs) p = [better] := by
  have hfault : relax r g p a.1 a.2 = .error (.fault .counterOverflow) := relax_eq_error.mpr (Or.inr ⟨better, h, hc, rfl⟩)
  rw [relaxStages, h, hfault]
  rfl

end

theorem relaxStages_keep (hP : ∀ a ∈ arcs, ∀ p q, P p.labels → relax r g p a.1 a.2 = .ok q → P q.labels)
    (hp : P p.labels) : ∀ x ∈ relaxStages r g arcs p, P x := by
  induction arcs generalizing p with
  | nil => simp [relaxStages]
  | cons a arcs ih =>
    have hstep := hP a (List.mem_cons_self ..)
    cases hq : relax r g p a.1 a.2 with
    | ok q =>
      rw [relaxStages_cons hq]
      have hpq : P q.labels := hstep p q hp hq
      exact List.forall_mem_cons.mpr ⟨hpq, ih (fun b hb => hP b (List.mem_cons_of_mem a hb)) hpq⟩
    | error e =>
      rcases relax_eq_error.mp hq with ⟨d, hf, -⟩ | ⟨better, hf, hc, -⟩
      · simp [relaxStages_overflow hf]
      · -- with fewer improvements before it, this one would have been counted
        have hcounted : relax r g ⟨p.labels, 0⟩ a.1 a.2 = .ok ⟨better, 1⟩ :=
          relax_eq_ok.mpr (Or.inr ⟨better, hf, one_lt_counterLimit, rfl⟩)
        rw [relaxStages_uncounted hf hc, List.forall_mem_singleton]
        exact hstep ⟨p.labels, 0⟩ ⟨better, 1⟩ hp hcounted

/-- A pass that is finished has a stage for each arc, and ends with the last of them. -/
theorem relaxStages_finished (h : relaxes r g arcs p = .ok q) :
    (p.labels :: relaxStages r g arcs p).getLast? = some q.labels ∧
      (relaxStages r g arcs p).length = arcs.length := by
  induction arcs generalizing p with
  | nil =>
    obtain rfl := Except.ok.inj h
    exact ⟨rfl, rfl⟩
  | cons a arcs ih =>
    obtain ⟨m, hm, hrest⟩ := relaxes_cons.mp h
    obtain ⟨hlast, hlength⟩ := ih hrest
    rw [relaxStages_cons hm]
    exact ⟨(List.getLast?_cons_cons ..).trans hlast, congrArg (· + 1) hlength⟩

/-- A way that does not fit is looked at right after the last stage, and an improvement that cannot be
counted is the last stage. -/
theorem relaxStages_failed {e : Failure SolveError} (h : relaxes r g arcs p = .error e) :
    ∃ x, (p.labels :: relaxStages r g arcs p).getLast? = some x ∧
      (e = .error (.overflow .costLabel) ∧ Stuck r g arcs x ∨ e = .fault .counterOverflow) := by
  induction arcs generalizing p with
  | nil => cases h
  | cons a arcs ih =>
    rcases bind_eq_error.mp h with h | ⟨q, hq, h⟩
    · rcases relax_eq_error.mp h with ⟨d, hf, rfl⟩ | ⟨better, hf, hc, rfl⟩
      · obtain ⟨⟨l, hl, hout⟩, rfl⟩ := improve_eq_error.mp hf
        rw [relaxStages_overflow hf]
        exact ⟨p.labels, rfl, Or.inl ⟨rfl, a, List.mem_cons_self .., l, hl, hout⟩⟩
      · rw [relaxStages_uncounted hf hc]
        exact ⟨better, rfl, Or.inr rfl⟩
    · obtain ⟨x, hlast, hend⟩ := ih h
      rw [relaxStages_cons hq]
      refine ⟨x, (List.getLast?_cons_cons ..).trans hlast, hend.imp_left ?_⟩
      rintro ⟨he, b, hb, hstuck⟩
      exact ⟨he, b, List.mem_cons_of_mem a hb, hstuck⟩

end Labels

/-! ## The stages of a search -/

namespace Network

/-- The labels after each relaxation of up to `passes` passes. -/
def correctStages (r : IntRange) (g : Network n) (arcs : List (Fin n × Fin n)) :
    (passes : Nat) → Labels n → List (Labels n)
  | 0, _ => []
  | passes + 1, labels =>
    relaxStages r g arcs ⟨labels, 0⟩ ++
      match Labels.relaxAll r g arcs labels with
      | .error _ => []
      | .ok p => if p.improved = 0 then [] else correctStages r g arcs passes p.labels

theorem correctStages_of_error {e : Failure SolveError} (h : relaxes r g arcs ⟨labels, 0⟩ = .error e) :
    correctStages r g arcs (k + 1) labels = relaxStages r g arcs ⟨labels, 0⟩ := by
  rw [correctStages, relaxAll_eq, h, List.append_nil]

theorem correctStages_last {p : Pass n} (h : relaxes r g arcs ⟨labels, 0⟩ = .ok p) (h0 : p.improved = 0) :
    correctStages r g arcs (k + 1) labels = relaxStages r g arcs ⟨labels, 0⟩ := by
  rw [correctStages, relaxAll_eq, h]
  simp only [h0, if_true, List.append_nil]

theorem correctStages_next {p : Pass n} (h : relaxes r g arcs ⟨labels, 0⟩ = .ok p) (h0 : p.improved ≠ 0) :
    correctStages r g arcs (k + 1) labels =
      relaxStages r g arcs ⟨labels, 0⟩ ++ correctStages r g arcs k p.labels := by
  rw [correctStages, relaxAll_eq, h]
  simp only [h0, if_false]

/-- The labels that a search starts with, and those after each of its relaxations. -/
def stages (r : IntRange) (g : Network n) (source : Fin n) : List (Labels n) :=
  Labels.start source :: correctStages r g g.residualArcs n (Labels.start source)

theorem correctStages_keep {P : Labels n → Prop}
    (hP : ∀ a ∈ arcs, ∀ p q, P p.labels → relax r g p a.1 a.2 = .ok q → P q.labels) (hl : P labels) :
    ∀ x ∈ correctStages r g arcs k labels, P x := by
  induction k generalizing labels with
  | zero => simp [correctStages]
  | succ k ih =>
    have hpass := relaxStages_keep (p := ⟨labels, 0⟩) hP hl
    cases hp : relaxes r g arcs ⟨labels, 0⟩ with
    | error e => rwa [correctStages_of_error hp]
    | ok p =>
      by_cases h0 : p.improved = 0
      · rwa [correctStages_last hp h0]
      · rw [correctStages_next hp h0]
        exact List.forall_mem_append.mpr ⟨hpass, ih (relaxes_keeps hP hp hl)⟩

/-- What every relaxation keeps is true at each stage. -/
theorem stages_keep {P : Labels n → Prop}
    (hP : ∀ a ∈ g.residualArcs, ∀ p q, P p.labels → relax r g p a.1 a.2 = .ok q → P q.labels)
    (hs : P (start s)) : ∀ x ∈ g.stages r s, P x :=
  List.forall_mem_cons.mpr ⟨hs, correctStages_keep hP hs⟩

/-- Stages that go on from where others have ended. -/
theorem getLast?_glue {α : Type} {x y z : α} {xs ys : List α} (hx : (x :: xs).getLast? = some y)
    (hy : (y :: ys).getLast? = some z) : (x :: (xs ++ ys)).getLast? = some z := by
  obtain ⟨before, hbefore⟩ := List.getLast?_eq_some_iff.mp hx
  rw [← List.cons_append, hbefore, List.append_assoc, List.singleton_append, List.getLast?_append, hy]
  rfl

theorem correctStages_finished (h : (correct r g arcs k labels).labels = .ok final) :
    (labels :: correctStages r g arcs k labels).getLast? = some final ∧
      (correctStages r g arcs k labels).length = (correct r g arcs k labels).improvements.length * arcs.length := by
  induction k generalizing labels with
  | zero =>
    obtain rfl := Except.ok.inj h
    exact ⟨rfl, by simp [correctStages, correct]⟩
  | succ k ih =>
    cases hp : relaxes r g arcs ⟨labels, 0⟩ with
    | error e =>
      rw [correct_failed hp] at h
      cases h
    | ok p =>
      obtain ⟨hlast, hlength⟩ := relaxStages_finished hp
      by_cases h0 : p.improved = 0
      · rw [correct_last hp h0] at h ⊢
        rw [correctStages_last hp h0]
        obtain rfl := Except.ok.inj h
        exact ⟨hlast, by simp [hlength]⟩
      · rw [correct_next hp h0] at h ⊢
        rw [correctStages_next hp h0]
        obtain ⟨hrest, hcount⟩ := ih h
        refine ⟨getLast?_glue hlast hrest, ?_⟩
        rw [List.length_append, hlength, hcount, List.length_cons, Nat.succ_mul, Nat.add_comm]

theorem correctStages_failed {e : Failure SolveError} (h : (correct r g arcs k labels).labels = .error e) :
    ∃ x, (labels :: correctStages r g arcs k labels).getLast? = some x ∧
      (e = .error (.overflow .costLabel) ∧ Stuck r g arcs x ∨ e = .fault .counterOverflow) := by
  induction k generalizing labels with
  | zero => cases h
  | succ k ih =>
    cases hp : relaxes r g arcs ⟨labels, 0⟩ with
    | error d =>
      rw [correct_failed hp] at h
      obtain rfl := Except.error.inj h
      rw [correctStages_of_error hp]
      exact relaxStages_failed hp
    | ok p =>
      by_cases h0 : p.improved = 0
      · rw [correct_last hp h0] at h
        cases h
      · rw [correct_next hp h0] at h
        rw [correctStages_next hp h0]
        obtain ⟨x, hrest, hend⟩ := ih h
        exact ⟨x, getLast?_glue (relaxStages_finished hp).1 hrest, hend⟩

/-- A search that ends with labels ends with those of its last stage, and has a stage for each arc of each pass. -/
theorem stages_search (h : (g.search r s).labels = .ok final) :
    (g.stages r s).getLast? = some final ∧
      (g.stages r s).length = (g.search r s).improvements.length * g.residualArcs.length + 1 := by
  obtain ⟨hlast, hlength⟩ := correctStages_finished h
  exact ⟨hlast, congrArg (· + 1) hlength⟩

/-- A search that fails has come to labels from which some way does not fit, or has just written a label too
many to count. -/
theorem stages_failed {e : Failure SolveError} (h : (g.search r s).labels = .error e) :
    ∃ labels, (g.stages r s).getLast? = some labels ∧
      (e = .error (.overflow .costLabel) ∧ Stuck r g g.residualArcs labels ∨ e = .fault .counterOverflow) :=
  correctStages_failed h

end Network

/-! ## What the predecessors explain -/

/-- The labels and predecessors at some point of a search from `s`. -/
structure Explained (g : Network n) (s : Fin n) (labels : Labels n) : Prop where
  predecessor_iff : ∀ v, v ≠ s →
    ((∃ l, labels.label v = some l) ↔ ∃ x, labels.predecessors[v.val]? = some (some x))
  predecessor : ∀ (v : Fin n) (x : Nat), labels.predecessors[v.val]? = some (some x) →
    ∃ (u : Fin n) (l m : Label n), u.val = x ∧ labels.label v = some l ∧ labels.label u = some m ∧
      u ≠ v ∧ g.residual u v ≠ 0 ∧ m.cost + g.cost u v ≤ l.cost
  walk : ∀ v l, labels.label v = some l → ∃ w, SearchWalk g s w v ∧ costOf g.cost w = l.cost
  /-- Walks from each vertex to one that it precedes. -/
  cycle : ∀ v w, Leads v w v → w ≠ [] → (∀ a ∈ w, labels.predecessors[a.2.val]? = some (some a.1.val)) →
    costOf g.cost w < 0

theorem explained (hg : Sound r g) (h : Grounded g s labels) (hc : labels.CyclesNegative g.cost) :
    Explained g s labels := by
  refine ⟨fun v hv => ⟨?_, ?_⟩, fun v x hx => ?_, fun v l hl => ?_, fun v w hw hne hpre => ?_⟩
  · rintro ⟨l, hl⟩
    obtain ⟨u, hu⟩ := h.exists_parent hl hv
    exact ⟨u, predecessors_eq_some.mpr ⟨l, u, hl, hu, rfl⟩⟩
  · rintro ⟨x, hx⟩
    obtain ⟨l, -, hl, -⟩ := predecessors_eq_some.mp hx
    exact ⟨l, hl⟩
  · obtain ⟨l, u, hl, hu, rfl⟩ := predecessors_eq_some.mp hx
    obtain ⟨⟨hne, hopen⟩, m, hm, hle⟩ := h.parent v l u hl hu
    exact ⟨u, l, m, rfl, hl, hm, hne, hopen.ne', by omega⟩
  · simp only [searchWalk_iff hg]
    exact h.walk v l hl
  · refine hc v w hw hne fun a ha => ?_
    obtain ⟨l, u, hl, hu, hname⟩ := predecessors_eq_some.mp (hpre a ha)
    exact ⟨l, hl, hu.trans (congrArg some (Fin.ext hname))⟩

/-- Whatever calls have led to a network, and whatever its costs: after any number of relaxations just the
labelled vertices have predecessors, but for the source; the way to each label through a predecessor costs
no more than the label; each label is the cost of a walk; and all cycles of predecessors have negative cost.
The answer of a search is read off the labels after all of its relaxations. -/
theorem stages_explained (hg : Reach r g) (s : Fin n) :
    (∀ (k : Nat) (labels : Labels n), (g.stages r s)[k]? = some labels → Explained g s labels) ∧
    ∀ (t : Fin n) (answer : Option PredecessorTree), g.cheapestPath r s t = .ok answer →
      ∃ labels, (g.stages r s).getLast? = some labels ∧ labels.treeTo t = answer := by
  have hsound := reach_sound hg
  constructor
  · intro k labels hk
    have hboth := Network.stages_keep (P := fun x => Grounded g s x ∧ x.CyclesNegative g.cost)
      (fun a ha p q hp hq => relax_keeps_both ((Network.mem_residualArcs hsound.residual_nonneg).mp ha) hp hq)
      ⟨start_grounded g s, start_cyclesNegative s g.cost⟩ labels (List.mem_of_getElem? hk)
    exact explained hsound hboth.1 hboth.2
  · intro t answer h
    rw [Network.cheapestPath_eq] at h
    obtain ⟨labels, hl, hanswer⟩ := Search.treeTo_eq_ok.mp h
    exact ⟨labels, (Network.stages_search hl).1, hanswer⟩

/-- In the middle of the first pass a cycle is closed at the source, whose label gets cheaper than what the
label of `1` was found with. -/
theorem refilled_explained : ∃ labels, (refilled.stages (.ofBits 32) 0)[4]? = some labels ∧
    labels = #v[some ⟨-11, some 2⟩, some ⟨-9, some 0⟩, some ⟨-8, some 1⟩, none] ∧
    Explained refilled 0 labels ∧ costOf refilled.cost [(0, 1), (1, 2), (2, 0)] < 0 := by
  have hstage : (refilled.stages (.ofBits 32) 0)[4]? =
      some #v[some ⟨-11, some 2⟩, some ⟨-9, some 0⟩, some ⟨-8, some 1⟩, none] := by
    decide +kernel
  have hexplained := (stages_explained refilled_reach 0).1 4 _ hstage
  exact ⟨_, hstage, rfl, hexplained, hexplained.cycle 0 _ ⟨rfl, rfl, rfl, rfl⟩ (by decide) (by decide +kernel)⟩

end MinCostFlow
