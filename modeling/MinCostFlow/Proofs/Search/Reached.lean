/-
  MinCostFlow.Proofs.Search.Reached — a search gives parents to the vertices that exploring
  finds.

  Two procedures ask where residual capacity leads. One corrects labels, in at most as many
  passes as there are vertices, over the pairs whose residual capacity is not zero. The
  other explores breadth first over the pairs that have some left. No residual capacity of
  a network that callers can come to is negative, so these are the same pairs. Both find
  the ends of all walks, whatever the costs are: also where a cycle of negative cost keeps
  the labels falling until the passes run out.

  A search between two vertices either ends with labels, or a label overflows, or a pass has
  more improvements than can be counted (`cheapestPath_cases`).

  Proved: a search that ends with labels has given a parent to just the vertices that are
  explored from its source, but for the source itself (`search_parent_iff`); so it finds a
  tree for a sink exactly if the sink is on the side of the source in the cut that residual
  capacities certify (`cheapestPath_reaches`).
-/

import MinCostFlow.Proofs.Cut.Reachable
import MinCostFlow.Proofs.Reach.Sound
import MinCostFlow.Proofs.Search.Bounds
import MinCostFlow.Proofs.Search.Counting

namespace MinCostFlow

variable {n : Nat} {r : IntRange} {g : Network n} {s t v : Fin n} {labels : Labels n}

namespace Network

theorem minimumCut_eq (g : Network n) (s : Fin n) : g.minimumCut s = .ok (g.reachableFrom s) := by
  rw [minimumCut, reachable, vertex_eq_ok.mpr rfl]
  rfl

theorem cheapestPath_eq (r : IntRange) (g : Network n) (s t : Fin n) :
    g.cheapestPath r s t = (g.search r s).treeTo t := by
  rw [cheapestPath, vertex_eq_ok.mpr rfl, vertex_eq_ok.mpr rfl]

theorem cheapestPath_cases (r : IntRange) (g : Network n) (s t : Fin n) :
    (∃ labels, (g.search r s).labels = .ok labels ∧ g.cheapestPath r s t = .ok (labels.treeTo t)) ∨
    g.cheapestPath r s t = .error (.error (.overflow .costLabel)) ∨
    g.cheapestPath r s t = .error (.fault .counterOverflow) ∧ Crowded r g s := by
  rw [cheapestPath_eq]
  cases hl : (g.search r s).labels with
  | ok labels => exact Or.inl ⟨labels, rfl, Search.treeTo_eq_ok.mpr ⟨labels, hl, rfl⟩⟩
  | error e =>
    rw [Search.treeTo_eq_error.mpr hl]
    cases e with
    | error d =>
      obtain rfl := search_eq_error hl
      exact Or.inr (Or.inl rfl)
    | fault f =>
      obtain ⟨rfl, hc⟩ := search_fault_iff.mp hl
      exact Or.inr (Or.inr ⟨rfl, hc⟩)

theorem cheapestPath_fault_iff {f : Fault} :
    g.cheapestPath r s t = .error (.fault f) ↔ .counterOverflow = f ∧ Crowded r g s := by
  rw [cheapestPath_eq, Search.treeTo_eq_error, search_fault_iff]

/-- Every labelled vertex but the source has a parent, and walks lead to just the labelled ones. -/
theorem search_parent_iff (hg : Sound r g) (h : (g.search r s).labels = .ok labels) (hv : v ≠ s) :
    (∃ l u, labels.label v = some l ∧ l.parent = some u) ↔ v ∈ g.reachableFrom s := by
  rw [mem_reachableFrom, ← search_labelled hg.residual_nonneg h]
  constructor
  · intro hp
    obtain ⟨l, _, hl, -⟩ := hp
    exact ⟨l, hl⟩
  · intro hl
    obtain ⟨l, hl⟩ := hl
    obtain ⟨u, hp⟩ := (search_grounded hg.residual_nonneg h).exists_parent hl hv
    exact ⟨l, u, hl, hp⟩

end Network

theorem Labels.treeTo_eq_none_iff :
    labels.treeTo t = none ↔ ¬∃ l u, labels.label t = some l ∧ l.parent = some u := by
  rw [Labels.treeTo_eq_none]
  constructor
  · rintro h ⟨l, u, hl, hu⟩
    cases (h l hl).symm.trans hu
  · intro h l hl
    cases hp : l.parent with
    | none => rfl
    | some u => exact absurd ⟨l, u, hl, hp⟩ h

/-- Whatever calls have led to a network, and whatever its costs: a search in which no label overflows
reaches what residual capacity leads to, or has too many improvements to count. -/
theorem cheapestPath_reaches (hg : Reach r g) (hst : s ≠ t)
    (h : ∀ c, g.cheapestPath r s t ≠ .error (.error (.overflow c))) :
    (∃ answer cut, g.cheapestPath r s t = .ok answer ∧ g.minimumCut s = .ok cut ∧ (answer = none ↔ t ∉ cut) ∧
      ∀ tree, answer = some tree → ∀ v, v ≠ s → ((∃ u, tree.predecessors[v.val]? = some (some u)) ↔ v ∈ cut)) ∨
    g.cheapestPath r s t = .error (.fault .counterOverflow) ∧ g.Crowded r s := by
  rcases g.cheapestPath_cases r s t with ⟨labels, hl, hanswer⟩ | hover | hcrowded
  · have hparent := fun v hv => Network.search_parent_iff (v := v) (reach_sound hg) hl hv
    refine Or.inl ⟨_, _, hanswer, g.minimumCut_eq s, ?_, ?_⟩
    · rw [Labels.treeTo_eq_none_iff, hparent t hst.symm]
    · intro tree htree v hv
      obtain ⟨c, u, -, rfl⟩ := Labels.treeTo_eq_some.mp htree
      rw [← hparent v hv]
      simp only [Labels.predecessors_eq_some]
      constructor
      · rintro ⟨_, l, p, hlv, hp, -⟩
        exact ⟨l, p, hlv, hp⟩
      · rintro ⟨l, p, hlv, hp⟩
        exact ⟨p, l, p, hlv, hp, rfl⟩
  · exact absurd hover (h .costLabel)
  · exact Or.inr hcrowded

/-- The cycle goes through the source, which gets a predecessor as well. -/
theorem refilled_searched : refilled.cheapestPath (.ofBits 32) 0 2 =
    .ok (some ⟨#[some 2, some 0, some 1, none], -41⟩) := by
  decide +kernel

theorem refilled_reaches : ∃ cut, refilled.minimumCut 0 = .ok cut ∧ 2 ∈ cut ∧
    ∀ v : Fin 4, v ≠ 0 → ((∃ u, #[some 2, some 0, some 1, none][v.val]? = some (some u)) ↔ v ∈ cut) := by
  have hok : ∀ c, refilled.cheapestPath (.ofBits 32) 0 2 ≠ .error (.error (.overflow c)) := by
    rw [refilled_searched]
    exact fun _ h => by cases h
  rcases cheapestPath_reaches (s := 0) (t := 2) refilled_reach (by decide) hok with
    ⟨answer, cut, hanswer, hcut, hnone, hparents⟩ | ⟨hfault, -⟩
  · obtain rfl := Except.ok.inj (refilled_searched.symm.trans hanswer)
    refine ⟨cut, hcut, ?_, hparents _ rfl⟩
    by_contra hmem
    cases hnone.mpr hmem
  · cases refilled_searched.symm.trans hfault

end MinCostFlow
