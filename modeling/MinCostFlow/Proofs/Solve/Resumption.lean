/-
  MinCostFlow.Proofs.Solve.Resumption — a solve goes on where rounds have stopped.

  A round reads the network and the terminals. Labels, predecessors and counts are made anew
  in each, so nothing but the network passes from one to the next, and it makes no difference
  who has asked for a round. A caller who searches and then augments along the tree that was
  found has made the round that a solve would have begun with (`HandMade.rounds`). The rest of
  that solve is a solve of the network that the caller is left with (`Rounds.resumes`):
  with the same last network and the same ending, and with the same totals, which are taken
  from the last network alone.

  Proved, of every network that callers can come to and any number of rounds made by hand: the
  two solves leave the same network and both succeed, with the same totals, or both fail in the
  same way, be it with an error or because there is too much to count (`solveBetween_resumes`). The rounds of a solve are such rounds too. So to solve again
  after a success changes nothing.
-/

import MinCostFlow.Proofs.Search.Reached
import MinCostFlow.Proofs.Solve.Endings

namespace MinCostFlow

variable {n : Nat} {r : IntRange} {g g' : Network n} {s t : Fin n} {a : Augmentation} {as : List Augmentation}

/-- Rounds made by hand: each is a search, and an augmentation along the tree that it has found. -/
inductive HandMade (r : IntRange) (source sink : Nat) : Network n → List Augmentation → Network n → Prop
  | none (g : Network n) : HandMade r source sink g [] g
  | cons {g g1 g' : Network n} {tree : PredecessorTree} {a : Augmentation} {as : List Augmentation} :
      g.cheapestPath r source sink = .ok (some tree) → g.augment r tree.predecessors source sink = .ok (a, g1) →
      HandMade r source sink g1 as g' → HandMade r source sink g (a :: as) g'

theorem HandMade.rounds (h : HandMade r s t g as g') : Rounds r s t g as g' := by
  induction h with
  | none g => exact .none g
  | cons hfound ha _ ih =>
    rw [Network.cheapestPath_eq, Search.treeTo_eq_ok] at hfound
    obtain ⟨labels, hl, htree⟩ := hfound
    exact .cons ⟨labels, _, hl, htree, ha⟩ ih

/-! ## The rest of a run -/

/-- A run whose first rounds have made these augmentations, and the run that is left of it. -/
structure Resumes (x : Run n) (as : List Augmentation) (rest : Run n) : Prop where
  augmentations : x.augmentations = as ++ rest.augmentations
  network : x.network = rest.network
  ending : x.ending = rest.ending

theorem Advances.exhaust_eq (h : Advances r s t g a g') :
    g.exhaust r s t = (g'.exhaust r s t).after (g.noted r s t (some a)) := by
  have hturn : g.turn r s t = .ok (some (a, g')) := Network.advances_iff.mp h
  rw [Network.exhaust_eq, hturn]

theorem Rounds.resumes (h : Rounds r s t g as g') : Resumes (g.exhaust r s t) as (g'.exhaust r s t) := by
  induction h with
  | none g => exact ⟨rfl, rfl, rfl⟩
  | cons h _ ih =>
    rw [h.exhaust_eq]
    exact ⟨congrArg (_ :: ·) ih.augmentations, ih.network, ih.ending⟩

/-- The answer of a solve that is made after these augmentations, for one that makes them itself. -/
def FlowResult.withFirst (as : List Augmentation) (result : FlowResult) : FlowResult :=
  { result with augmentations := as ++ result.augmentations }

theorem Resumes.result_eq {x rest : Run n} (h : Resumes x as rest) :
    x.result r = (rest.result r).map (FlowResult.withFirst as) := by
  unfold Run.result
  rw [h.network, h.ending, h.augmentations]
  cases rest.ending with
  | error e => rfl
  | ok u =>
    cases rest.network.flowCost r with
    | error f => rfl
    | ok cost => cases cost <;> rfl

theorem Rounds.solveBetween_eq (h : Rounds r s t g as g') (hst : s ≠ t) :
    (g.solveBetween r s t).augmentations = as ++ (g'.solveBetween r s t).augmentations ∧
    (g.solveBetween r s t).network = (g'.solveBetween r s t).network ∧
    (g.solveBetween r s t).outcome = (g'.solveBetween r s t).outcome.map (FlowResult.withFirst as) := by
  have hresumes := h.resumes
  rw [Network.solveBetween_eq r g hst, Network.solveBetween_eq r g' hst]
  exact ⟨hresumes.augmentations, hresumes.network, hresumes.result_eq⟩

/-- A solve has nothing left to do for another one that follows it. -/
theorem solveBetween_again {result : FlowResult} (hst : s ≠ t) (h : (g.solveBetween r s t).outcome = .ok result) :
    let final := (g.solveBetween r s t).network
    (final.solveBetween r s t).network = final ∧
      (final.solveBetween r s t).outcome = .ok { result with augmentations := [] } := by
  have hsolved := Network.solveBetween_solved h
  obtain ⟨-, hnetwork, houtcome⟩ := hsolved.rounds.solveBetween_eq hst
  refine ⟨hnetwork.symm, ?_⟩
  rw [h] at houtcome
  obtain ⟨again, hagain, hresult⟩ := map_eq_ok.mp houtcome.symm
  have hnone : again.augmentations = [] := by
    have happend : result.augmentations ++ again.augmentations = result.augmentations := congrArg (·.augmentations) hresult
    exact List.append_right_eq_self.mp happend
  rw [hagain, ← hresult, ← hnone]
  rfl

/-- Rounds that a caller has made by hand are rounds that a solve need not make; what it does after them
does not depend on who has made them. -/
theorem solveBetween_resumes (hg : Reach r g) (hst : s ≠ t) (h : HandMade r s t g as g') :
    let whole := g.solveBetween r s t
    let rest := g'.solveBetween r s t
    whole.network = rest.network ∧
    ((∃ x y, whole.outcome = .ok x ∧ rest.outcome = .ok y ∧ x.totalFlow = y.totalFlow ∧ x.totalCost = y.totalCost ∧
        x.augmentations = as ++ y.augmentations) ∨
      (∃ e, whole.outcome = .error (.error e) ∧ rest.outcome = .error (.error e)) ∨
      whole.outcome = .error (.fault .counterOverflow) ∧ rest.outcome = .error (.fault .counterOverflow)) ∧
    ∀ x, whole.outcome = .ok x →
      (whole.network.solveBetween r s t).network = whole.network ∧
        (whole.network.solveBetween r s t).outcome = .ok { x with augmentations := [] } := by
  obtain ⟨-, hnetwork, houtcome⟩ := h.rounds.solveBetween_eq hst
  refine ⟨hnetwork, ?_, fun x hx => solveBetween_again hst hx⟩
  have hsound := h.rounds.sound (reach_sound hg)
  rcases solveBetween_returns hsound s t with ⟨y, hy⟩ | ⟨e, he⟩ | hf
  · rw [hy] at houtcome
    exact Or.inl ⟨y.withFirst as, y, houtcome, hy, rfl, rfl, rfl⟩
  · rw [he] at houtcome
    exact Or.inr (Or.inl ⟨e, houtcome, he⟩)
  · rw [hf] at houtcome
    exact Or.inr (Or.inr ⟨houtcome, hf⟩)

/-- The diamond after the first of the two rounds of its solve. -/
def halfway : Network 4 :=
  { diamond with
    residual := ⟨#v[
      0, 0, 1, 0,
      1, 0, 0, 1,
      0, 1, 0, 0,
      0, 0, 1, 0]⟩
    totalFlow := 1 }

theorem halfway_handMade : HandMade (.ofBits 32) 0 3 diamond [⟨[0, 1, 2, 3], 1, 3⟩] halfway := by
  have hfound : diamond.cheapestPath (.ofBits 32) 0 3 = .ok (some ⟨#[none, some 0, some 1, some 2], 3⟩) := by
    decide +kernel
  exact .cons hfound (by decide +kernel) (.none _)

theorem halfway_resumes : ∃ y, (halfway.solveBetween (.ofBits 32) 0 3).outcome = .ok y ∧ y.totalFlow = 2 ∧
    y.totalCost = 9 ∧ y.augmentations = [⟨[0, 2, 1, 3], 1, 6⟩] ∧
    (diamond.solveBetween (.ofBits 32) 0 3).network = (halfway.solveBetween (.ofBits 32) 0 3).network := by
  obtain ⟨hnetwork, hboth, -⟩ := solveBetween_resumes (s := 0) (t := 3) (.built diamond_built) (by decide) halfway_handMade
  rcases hboth with ⟨x, y, hx, hy, hflow, hcost, hmade⟩ | ⟨e, he, -⟩ | ⟨hf, -⟩
  · obtain rfl := Except.ok.inj (diamond_solved.symm.trans hx)
    exact ⟨y, hy, hflow.symm, hcost.symm, (List.cons.inj hmade).2.symm, hnetwork⟩
  · cases diamond_solved.symm.trans he
  · cases diamond_solved.symm.trans hf

end MinCostFlow
