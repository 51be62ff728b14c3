/-
  MinCostFlow.Proofs.Solve.Cycles — rounds create no cycle of negative cost.

  Augmenting opens the reverses of the arcs on the path, at the opposite costs. The
  labels of the search in which the path was found stay settled: on the path they differ
  by just what the arcs cost, so the reverses offer no improvement either
  (`Advances.certified`). A cycle that meets a labelled vertex therefore costs at least
  nothing, and one that does not consists of arcs that were there before.
-/

import Mathlib.Logic.Relation
import MinCostFlow.Proofs.Reach.Sound

namespace MinCostFlow

variable {n : Nat} {r : IntRange} {g g' : Network n} {s t u v : Fin n} {a : Augmentation}
  {as : List Augmentation} {labels : Labels n}

/-- What the labels of a round say about the network after it. -/
structure Certified (g g' : Network n) (s t : Fin n) (a : Augmentation) (labels : Labels n) : Prop where
  source : labels.Within s 0
  /-- The path cost what the sink is labelled with. -/
  sink : ∃ l, labels.label t = some l ∧ l.cost = a.cost
  settled : labels.SettledOn g'.residual g'.cost
  /-- Away from the labels nothing has opened. -/
  apart : ∀ u v, labels.label u = none → Open g'.residual u v → Open g.residual u v

theorem Advances.certified (h : Advances r s t g a g') (hg : Sound r g)
    (hk : NoNegativeCycleFrom g.residual g.cost s) : ∃ labels, Certified g g' s t a labels := by
  obtain ⟨labels, arcs, hl, hp, hparent⟩ := h.pushed
  have hs := Network.search_settled hg.residual_nonneg hl hk
  refine ⟨labels, hs.source, ?_, ?_, ?_⟩
  · obtain ⟨l, hlt⟩ := (Network.search_labelled hg.residual_nonneg hl).mpr ⟨arcs, hp.walk⟩
    exact ⟨l, hlt, by rw [hp.cost, hs.cost_of_parents hp.leads hparent hlt]⟩
  · intro u v c ho hu
    rw [hp.cost_eq]
    rcases hp.opened ho with ho' | hm
    · exact hs.settled u v c ho' hu
    · obtain ⟨l, hlu, hpar⟩ := hparent (v, u) hm
      obtain ⟨m, hmv, (he : m.cost + g.cost v u = l.cost)⟩ := hs.tight hlu hpar
      have := hu.le hlu
      have := hg.cost_skew v u ho.1.symm
      exact ⟨m, hmv, by omega⟩
  · intro u v hu ho
    rcases hp.opened ho with ho' | hm
    · exact ho'
    · obtain ⟨l, hlu, -⟩ := hparent (v, u) hm
      simp [hu] at hlu

theorem Certified.noNegativeCycle (h : Certified g g' s t a labels) (hcost : g'.cost = g.cost)
    (hk : NoNegativeCycle g.residual g.cost) : NoNegativeCycle g'.residual g'.cost := by
  intro v w hw hsimple
  cases hv : labels.label v with
  | some l =>
    have := (h.settled.walk hw ⟨l, hv, le_rfl⟩).le hv
    omega
  | none =>
    -- from a labelled vertex the cycle would come to `v`, which has no label
    have hopen : ∀ x ∈ w, Open g.residual x.1 x.2 := by
      intro x hx
      refine h.apart x.1 x.2 ?_ (hw.isOpen x hx)
      cases hl : labels.label x.1 with
      | none => rfl
      | some l =>
        obtain ⟨y, z, rfl, -, hz⟩ := leads_split hw.leads hx
        have hrest : Walk g'.residual x.1 (x :: z) v :=
          ⟨⟨rfl, hz⟩, fun b hb => hw.isOpen b (List.mem_append_right y hb)⟩
        obtain ⟨l', hl', -⟩ := h.settled.walk hrest ⟨l, hl, le_rfl⟩
        rw [hv] at hl'
        cases hl'
    rw [hcost]
    exact hk v w ⟨hw.leads, hopen⟩ hsimple

theorem Advances.noNegativeCycle (h : Advances r s t g a g') (hg : Sound r g)
    (hk : NoNegativeCycle g.residual g.cost) : NoNegativeCycle g'.residual g'.cost := by
  obtain ⟨labels, hc⟩ := h.certified hg (hk.from s)
  obtain ⟨_, _, _, hp, _⟩ := h.pushed
  exact hc.noNegativeCycle hp.cost_eq hk

theorem Rounds.noNegativeCycle (h : Rounds r s t g as g') (hg : Sound r g)
    (hk : NoNegativeCycle g.residual g.cost) : NoNegativeCycle g'.residual g'.cost := by
  induction h with
  | none => exact hk
  | cons h _ ih =>
    exact ih (h.sound hg) (h.noNegativeCycle hg hk)

theorem solveBetween_noNegativeCycle (hg : Sound r g) (hk : NoNegativeCycle g.residual g.cost)
    (source sink : Nat) :
    NoNegativeCycle (g.solveBetween r source sink).network.residual (g.solveBetween r source sink).network.cost := by
  rcases Network.solveBetween_rounds r g source sink with ⟨-, h⟩ | ⟨s, t, -, -, -, h⟩
  · rwa [h]
  · exact h.noNegativeCycle hg hk

/-! ## Any calls that solve -/

/-- A round that a caller makes by hand, a change of the terminals, or a solve, whatever it ends with. -/
inductive SolvingCall (r : IntRange) (g : Network n) : Network n → Prop
  | round {g' : Network n} {tree : PredecessorTree} {a : Augmentation} {source sink : Nat} :
      g.cheapestPath r source sink = .ok (some tree) → g.augment r tree.predecessors source sink = .ok (a, g') →
      SolvingCall r g g'
  | setTerminals {g' : Network n} {source sink : Nat} : g.setTerminals source sink = .ok g' → SolvingCall r g g'
  | solve (source sink : Nat) : SolvingCall r g (g.solveBetween r source sink).network

theorem advances_of_cheapestPath {tree : PredecessorTree} {source sink : Nat}
    (h : g.cheapestPath r source sink = .ok (some tree))
    (ha : g.augment r tree.predecessors source sink = .ok (a, g')) : ∃ s t, Advances r s t g a g' := by
  unfold Network.cheapestPath at h
  split at h
  · rename_i s t hs ht
    obtain ⟨labels, hl, htree⟩ := Search.treeTo_eq_ok.mp h
    rw [← Network.vertex_eq_ok.mp hs, ← Network.vertex_eq_ok.mp ht] at ha
    exact ⟨s, t, labels, tree, hl, htree, ha⟩
  · cases h

theorem SolvingCall.sound (h : SolvingCall r g g') (hg : Sound r g) : Sound r g' := by
  cases h with
  | round _ ha =>
    obtain ⟨-, _, _, _, -, -, hp⟩ := augment_eq_ok ha
    exact hp.sound hg
  | setTerminals h => exact setTerminals_sound hg h
  | solve source sink => exact solveBetween_sound hg source sink

theorem SolvingCall.noNegativeCycle (h : SolvingCall r g g') (hg : Sound r g)
    (hk : NoNegativeCycle g.residual g.cost) : NoNegativeCycle g'.residual g'.cost := by
  cases h with
  | round h ha =>
    obtain ⟨s, t, hadv⟩ := advances_of_cheapestPath h ha
    exact hadv.noNegativeCycle hg hk
  | setTerminals h =>
    obtain ⟨_, _, -, -, rfl⟩ := Network.setTerminals_eq_ok.mp h
    exact hk
  | solve source sink => exact solveBetween_noNegativeCycle hg hk source sink

/-- Without a cycle of negative cost to begin with, there is none after any number of rounds and
solves, between any terminals. -/
theorem noNegativeCycle_kept (hg : Reach r g) (hk : NoNegativeCycle g.residual g.cost)
    (h : Relation.ReflTransGen (SolvingCall r) g g') : NoNegativeCycle g'.residual g'.cost := by
  have hboth : Sound r g' ∧ NoNegativeCycle g'.residual g'.cost := by
    induction h with
    | refl => exact ⟨reach_sound hg, hk⟩
    | tail _ h ih => exact ⟨h.sound ih.1, h.noNegativeCycle ih.1 ih.2⟩
  exact hboth.2

theorem diamond_noNegativeCycle_kept :
    NoNegativeCycle (diamond.solveBetween (.ofBits 32) 0 3).network.residual
      (diamond.solveBetween (.ofBits 32) 0 3).network.cost :=
  noNegativeCycle_kept (.built diamond_built) diamond_noNegativeCycle (.single (.solve 0 3))

end MinCostFlow
