/-
  MinCostFlow.Proofs.Solve.Rounds — a solve is a sequence of rounds.

  In a round the search finds a tree for the sink and the network is augmented along it
  (`Advances`). Whatever a solve ends with, it has gone through such rounds to the
  network that it leaves (`exhaust_rounds`, `solveBetween_rounds`), and it succeeds only
  when the last search leaves the sink without a tree (`exhaust_ending`).
-/

import MinCostFlow.Flow.Solve
import MinCostFlow.Network.Lemmas
import MinCostFlow.Proofs.Augmentation.Push
import MinCostFlow.Proofs.Search.Passes

namespace MinCostFlow

variable {n : Nat} {r : IntRange} {g g' g1 : Network n} {s t : Fin n} {a : Augmentation}
  {as bs : List Augmentation} {source sink : Nat}

/-- A round that makes the augmentation `a`. -/
def Advances (r : IntRange) (s t : Fin n) (g : Network n) (a : Augmentation) (g' : Network n) : Prop :=
  ∃ labels tree, (g.search r s).labels = .ok labels ∧ labels.treeTo t = some tree ∧
    g.augment r tree.predecessors s t = .ok (a, g')

/-- Rounds that make these augmentations, one after the other. -/
inductive Rounds (r : IntRange) (s t : Fin n) : Network n → List Augmentation → Network n → Prop
  | none (g : Network n) : Rounds r s t g [] g
  | cons {g g1 g' : Network n} {a : Augmentation} {as : List Augmentation} :
      Advances r s t g a g1 → Rounds r s t g1 as g' → Rounds r s t g (a :: as) g'

/-- A round sends flow along the parents of the labels that its search ends with. -/
theorem Advances.pushed (h : Advances r s t g a g') :
    ∃ labels arcs, (g.search r s).labels = .ok labels ∧ Pushed r g s t arcs a g' ∧ labels.Descends arcs := by
  obtain ⟨labels, tree, hl, ht, ha⟩ := h
  obtain ⟨c, u, -, rfl⟩ := Labels.treeTo_eq_some.mp ht
  obtain ⟨htr, s', t', arcs, hs, ht', hp⟩ := augment_eq_ok ha
  obtain rfl := Fin.ext hs
  obtain rfl := Fin.ext ht'
  refine ⟨labels, arcs, hl, hp, ?_⟩
  intro x hx
  obtain ⟨hpre, -⟩ := htr.of_mem_hops (hp.hops_path ▸ List.mem_map_of_mem hx)
  obtain ⟨l, u, hlx, hu, hux⟩ := Labels.predecessors_eq_some.mp hpre
  exact ⟨l, hlx, hu.trans (congrArg some (Fin.ext hux))⟩

/-- What sending flow along any path keeps, rounds keep. -/
theorem Rounds.keeps {P : Network n → Prop} (hP : ∀ g g' a arcs, P g → Pushed r g s t arcs a g' → P g')
    (h : Rounds r s t g as g') (hg : P g) : P g' := by
  induction h with
  | none => exact hg
  | cons h _ ih =>
    obtain ⟨_, arcs, _, hp, _⟩ := h.pushed
    exact ih (hP _ _ _ arcs hg hp)

namespace Network

theorem advance_eq_some {tree : Except (Failure SolveError) (Option PredecessorTree)} :
    advance r g s t tree = .ok (some (a, g')) ↔
      ∃ x, tree = .ok (some x) ∧ g.augment r x.predecessors s t = .ok (a, g') := by
  simp only [advance, bind_eq_ok]
  constructor
  · intro h
    obtain ⟨x, rfl, h⟩ := h
    cases x with
    | none => simp [pure_eq_ok] at h
    | some x =>
      simp only [bind_eq_ok, pure_eq_ok, Option.some.injEq] at h
      obtain ⟨_, h, rfl⟩ := h
      exact ⟨x, rfl, h⟩
  · intro h
    obtain ⟨x, rfl, h⟩ := h
    exact ⟨some x, rfl, bind_eq_ok.mpr ⟨_, h, rfl⟩⟩

theorem advance_eq_none {tree : Except (Failure SolveError) (Option PredecessorTree)} :
    advance r g s t tree = .ok none ↔ tree = .ok none := by
  simp only [advance, bind_eq_ok]
  constructor
  · intro h
    obtain ⟨x, rfl, h⟩ := h
    cases x with
    | none => rfl
    | some x =>
      obtain ⟨_, -, h⟩ := bind_eq_ok.mp h
      cases h
  · intro h
    exact ⟨none, h, rfl⟩

theorem advances_iff :
    Advances r s t g a g' ↔ advance r g s t ((g.search r s).treeTo t) = .ok (some (a, g')) := by
  rw [advance_eq_some]
  simp only [Advances, Search.treeTo_eq_ok]
  constructor
  · intro h
    obtain ⟨labels, tree, hl, ht, ha⟩ := h
    exact ⟨tree, ⟨labels, hl, ht⟩, ha⟩
  · intro h
    obtain ⟨tree, ⟨labels, hl, ht⟩, ha⟩ := h
    exact ⟨labels, tree, hl, ht, ha⟩

theorem exhaust_rounds (r : IntRange) (g : Network n) (s t : Fin n) :
    Rounds r s t g (g.exhaust r s t).augmentations (g.exhaust r s t).network := by
  fun_induction exhaust r g s t with
  | case1 => exact .none _
  | case2 => exact .none _
  | case3 g found tree label a g' h ih => exact .cons (advances_iff.mpr h) ih

/-- The last search of a run that does not fail finds no tree. -/
theorem exhaust_ending (h : (g.exhaust r s t).ending = .ok ()) :
    ∃ labels, ((g.exhaust r s t).network.search r s).labels = .ok labels ∧ labels.treeTo t = none := by
  fun_induction exhaust r g s t with
  | case1 => cases h
  | case2 g found tree label hn => exact Search.treeTo_eq_ok.mp (advance_eq_none.mp hn)
  | case3 g found tree label a g' _ ih => exact ih h

/-! ## Solving between given terminals -/

theorem terminals_eq_ok :
    terminals n source sink = .ok (s, t) ↔ s.val = source ∧ t.val = sink ∧ s ≠ t := by
  simp only [terminals, bind_eq_ok, mapError_eq_ok, vertex_eq_ok, demand_eq_ok, pure_eq_ok, Prod.mk.injEq]
  constructor
  · intro h
    obtain ⟨_, hs, _, ht, _, hne, rfl, rfl⟩ := h
    exact ⟨hs, ht, hne⟩
  · intro h
    exact ⟨s, h.1, t, h.2.1, (), h.2.2, rfl, rfl⟩

theorem solveBetween_eq (r : IntRange) (g : Network n) (hst : s ≠ t) : g.solveBetween r s t =
    ⟨(g.exhaust r s t).rounds, (g.exhaust r s t).network, (g.exhaust r s t).result r⟩ := by
  rw [solveBetween, terminals_eq_ok.mpr ⟨rfl, rfl, hst⟩]

/-- A solve is refused, or is a run between two different vertices. -/
theorem solveBetween_cases (r : IntRange) (g : Network n) (source sink : Nat) :
    (∃ e, g.solveBetween r source sink = ⟨[], g, .error (.error e)⟩) ∨
    ∃ s t : Fin n, s.val = source ∧ t.val = sink ∧ s ≠ t ∧
      g.solveBetween r source sink =
        ⟨(g.exhaust r s t).rounds, (g.exhaust r s t).network, (g.exhaust r s t).result r⟩ := by
  cases h : terminals n source sink with
  | error e => exact Or.inl ⟨e, by rw [solveBetween, h]⟩
  | ok p =>
    obtain ⟨s, t⟩ := p
    obtain ⟨rfl, rfl, hst⟩ := terminals_eq_ok.mp h
    exact Or.inr ⟨s, t, rfl, rfl, hst, solveBetween_eq r g hst⟩

end Network

/-- The augmentations that a solve has made, whether or not it succeeded. -/
def Solution.augmentations (x : Solution n) : List Augmentation := x.rounds.filterMap (·.augmentation)

/-- A solve that succeeded: rounds up to a search that leaves the sink without a tree. -/
structure Solved (r : IntRange) (s t : Fin n) (g : Network n) (result : FlowResult) (g' : Network n) : Prop where
  apart : s ≠ t
  rounds : Rounds r s t g result.augmentations g'
  ending : ∃ labels, (g'.search r s).labels = .ok labels ∧ labels.treeTo t = none
  cost : g'.flowCost r = .ok (some result.totalCost)
  flow : result.totalFlow = g'.totalFlow

namespace Network

/-- A solve goes through rounds between one pair of vertices, if any, whatever it ends with. -/
theorem solveBetween_rounds (r : IntRange) (g : Network n) (source sink : Nat) :
    (g.solveBetween r source sink).augmentations = [] ∧ (g.solveBetween r source sink).network = g ∨
    ∃ s t : Fin n, s.val = source ∧ t.val = sink ∧ s ≠ t ∧
      Rounds r s t g (g.solveBetween r source sink).augmentations (g.solveBetween r source sink).network := by
  rcases solveBetween_cases r g source sink with ⟨e, h⟩ | ⟨s, t, hs, ht, hne, h⟩
  · rw [h]
    exact Or.inl ⟨rfl, rfl⟩
  · rw [h]
    exact Or.inr ⟨s, t, hs, ht, hne, exhaust_rounds r g s t⟩

/-- A success has gone through what it answers. -/
theorem solveBetween_eq_ok {result : FlowResult} (h : (g.solveBetween r source sink).outcome = .ok result) :
    ∃ s t : Fin n, s.val = source ∧ t.val = sink ∧ Solved r s t g result (g.solveBetween r source sink).network := by
  rcases solveBetween_cases r g source sink with ⟨e, he⟩ | ⟨s, t, hs, ht, hne, he⟩
  · rw [he] at h
    cases h
  · rw [he] at h ⊢
    simp only [Run.result, bind_eq_ok, orFault_eq_ok, expect_eq_ok, pure_eq_ok] at h
    obtain ⟨_, hend, _, hcost, _, rfl, rfl⟩ := h
    exact ⟨s, t, hs, ht, hne, exhaust_rounds r g s t, exhaust_ending hend, hcost, rfl⟩

theorem solveBetween_solved {result : FlowResult} (h : (g.solveBetween r s t).outcome = .ok result) :
    Solved r s t g result (g.solveBetween r s t).network := by
  obtain ⟨s', t', hs, ht, hsolved⟩ := solveBetween_eq_ok h
  obtain rfl := Fin.ext hs
  obtain rfl := Fin.ext ht
  exact hsolved

end Network

end MinCostFlow
