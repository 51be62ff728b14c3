/-
  MinCostFlow.Proofs.Flow.CostRange — when the cost of the flow can be given.

  The cost is added up arc by arc, in the order of the listing, and every product and every
  sum on the way has to be in range. Flow is positive, so a product has the sign of its cost.
  Where costs of both signs carry flow, a product or a sum on the way can be out of range
  although the whole is not: two units that go up at a cost of 100 each and down again for the
  same cost nothing, and that is not given in 8 bits (`seesaw_free`). So a solve may fail for a
  total cost that could be stored. Where all costs have one sign, the sums go straight to the
  total.

  Proved, of every network that callers can come to: the cost is given just where the listing
  adds up, and then it is exact; with costs of one sign it is given whenever it can be stored;
  and a solve that cannot give its cost has left a listing that does not add up
  (`flowCost_adds_up`).
-/

import MinCostFlow.Proofs.Flow.Listing
import MinCostFlow.Proofs.Solve.Endings

namespace MinCostFlow

variable {n : Nat} {r : IntRange} {g : Network n} {s t : Fin n} {flows : List ArcFlow} {c : Int} {source sink : Nat}

/-- What the flow on the listed arcs costs. -/
def costOfListing (flows : List ArcFlow) : Int := (flows.map fun x => x.flow * x.cost).sum

/-- What each arc costs, and what the arcs up to each cost together, can be stored. -/
structure AddsUp (r : IntRange) (flows : List ArcFlow) : Prop where
  products : ∀ x ∈ flows, x.flow * x.cost ∈ r
  sums : ∀ front, front <+: flows → costOfListing front ∈ r

namespace Network

theorem foldlM_addCost : flows.foldlM (addCost r) 0 = some c ↔ AddsUp r flows ∧ c = costOfListing flows := by
  rw [foldlM_eq_some_iff addCost_eq_some r.zero_mem]
  simp only [zero_add]
  constructor
  · rintro ⟨hproducts, hsums, hc⟩
    exact ⟨⟨hproducts, hsums⟩, hc⟩
  · rintro ⟨h, hc⟩
    exact ⟨h.products, h.sums, hc⟩

theorem foldlM_addCost_none : flows.foldlM (addCost r) 0 = none ↔ ¬AddsUp r flows := by
  rw [Option.eq_none_iff_forall_ne_some]
  simp only [ne_eq, foldlM_addCost, not_and]
  exact ⟨fun h hadds => h _ hadds rfl, fun h _ hadds => absurd hadds h⟩

end Network

/-- The total is one of the sums, and each product is that of a part of the listing. -/
theorem addsUp_iff_of_sign (hsign : (∀ x ∈ flows, 0 ≤ x.flow * x.cost) ∨ ∀ x ∈ flows, x.flow * x.cost ≤ 0) :
    AddsUp r flows ↔ costOfListing flows ∈ r := by
  constructor
  · intro h
    exact h.sums flows List.prefix_rfl
  · intro h
    have hpart : ∀ part : List ArcFlow, part.Sublist flows → costOfListing part ∈ r := by
      intro part hp
      have := partialSum_mem hsign r.zero_mem (by rwa [zero_add]) hp
      rwa [zero_add] at this
    refine ⟨fun x hx => ?_, fun front hfront => hpart front hfront.sublist⟩
    simpa [costOfListing] using hpart [x] (List.singleton_sublist.mpr hx)

/-- Listed flow is positive. -/
theorem sign_of_costs (hflow : ∀ x ∈ flows, 0 < x.flow) (hcost : (∀ x ∈ flows, 0 ≤ x.cost) ∨ ∀ x ∈ flows, x.cost ≤ 0) :
    (∀ x ∈ flows, 0 ≤ x.flow * x.cost) ∨ ∀ x ∈ flows, x.flow * x.cost ≤ 0 := by
  rcases hcost with hcost | hcost
  · exact Or.inl fun x hx => mul_nonneg (hflow x hx).le (hcost x hx)
  · exact Or.inr fun x hx => mul_nonpos_of_nonneg_of_nonpos (hflow x hx).le (hcost x hx)

theorem listed_pos (g : Network n) : ∀ x ∈ g.sentPairs.map g.listed, 0 < x.flow := by
  intro x hx
  obtain ⟨p, hp, rfl⟩ := List.mem_map.mp hx
  exact Network.mem_sentPairs.mp hp

/-! ## Solves that cannot give their cost -/

theorem RoundEnds.no_flowCost : ¬RoundEnds r g s t (.error (.error (.overflow .flowCost))) := by
  intro h
  rcases h.of_error with ⟨c, hc, he⟩ | ⟨-, he⟩ | ⟨_, _, -, -, he⟩
  · cases he
    exact hc rfl
  · cases he
  · cases he

theorem solveBetween_flowCost (hg : Sound r g)
    (h : (g.solveBetween r source sink).outcome = .error (.error (.overflow .flowCost))) :
    (g.solveBetween r source sink).network.flowCost r = .ok none := by
  rcases Network.solveBetween_eq_error hg h with ⟨_, h⟩ | ⟨_, h⟩ | ⟨_, _, -, -, -, -, h | ⟨h, -⟩⟩
  · cases h
  · cases h
  · exact absurd h RoundEnds.no_flowCost
  · exact h

/-- The cost of the flow is given just where each product and each sum along the listing can be stored. With
costs of one sign that is where the total can be stored; otherwise a solve may fail for a total that could be. -/
theorem flowCost_adds_up (hg : Reach r g) :
    (∃ flows, g.arcFlows r = .ok flows ∧
      (∀ c, g.flowCost r = .ok (some c) ↔ AddsUp r flows ∧ c = costOfListing flows) ∧
      (g.flowCost r = .ok none ↔ ¬AddsUp r flows) ∧
      ((∀ x ∈ flows, 0 ≤ x.cost) ∨ (∀ x ∈ flows, x.cost ≤ 0) →
        g.flowCost r = .ok (r.fit? (costOfListing flows)))) ∧
    ∀ source sink, (g.solveBetween r source sink).outcome = .error (.error (.overflow .flowCost)) →
      ∃ flows, (g.solveBetween r source sink).network.arcFlows r = .ok flows ∧ ¬AddsUp r flows := by
  have hsound := reach_sound hg
  constructor
  · refine ⟨_, Network.arcFlows_eq hsound, fun c => ?_, ?_, fun hcost => ?_⟩
    · rw [Network.flowCost_eq hsound, Except.ok.injEq, Network.foldlM_addCost]
    · rw [Network.flowCost_eq hsound, Except.ok.injEq, Network.foldlM_addCost_none]
    · have hadds := addsUp_iff_of_sign (r := r) (sign_of_costs (listed_pos g) hcost)
      rw [Network.flowCost_eq hsound]
      congr 1
      apply Option.ext
      intro c
      rw [Network.foldlM_addCost, hadds, IntRange.fit?_eq_some, eq_comm (a := c)]
  · intro source sink h
    have hfinal := solveBetween_sound hsound source sink
    refine ⟨_, Network.arcFlows_eq hfinal, ?_⟩
    rw [← Network.foldlM_addCost_none, ← Except.ok.injEq, ← Network.flowCost_eq hfinal]
    exact solveBetween_flowCost hsound h

/-! ## Going up and down again -/

def seesawFlows : List ArcFlow := [⟨0, 1, 1, 100⟩, ⟨0, 2, 1, 100⟩, ⟨1, 3, 1, -100⟩, ⟨2, 3, 1, -100⟩]

theorem seesaw_solved : (seesaw.solveBetween (.ofBits 8) 0 3).outcome = .error (.error (.overflow .flowCost)) ∧
    (seesaw.solveBetween (.ofBits 8) 0 3).network.arcFlows (.ofBits 8) = .ok seesawFlows := by
  decide +kernel

theorem seesaw_reach : Reach (.ofBits 8) (seesaw.solveBetween (.ofBits 8) 0 3).network := by
  refine (Reach.built seesaw_built).step (.solve 0 3 fun f h => ?_)
  cases seesaw_solved.1.symm.trans h

/-- The solve fails, because it went up twice before it comes down. -/
theorem seesaw_adds_up : ¬AddsUp (.ofBits 8) seesawFlows ∧
    (seesaw.solveBetween (.ofBits 8) 0 3).network.flowCost (.ofBits 8) = .ok none := by
  obtain ⟨-, hfailed⟩ := flowCost_adds_up (.built seesaw_built)
  obtain ⟨flows, hflows, hnot⟩ := hfailed 0 3 seesaw_solved.1
  obtain rfl := Except.ok.inj (seesaw_solved.2.symm.trans hflows)
  obtain ⟨⟨flows, hflows, -, hnone, -⟩, -⟩ := flowCost_adds_up seesaw_reach
  obtain rfl := Except.ok.inj (seesaw_solved.2.symm.trans hflows)
  exact ⟨hnot, hnone.mpr hnot⟩

/-- So a cost that can be stored is not always given, by a network or by a solve. -/
theorem seesaw_free : Reach (.ofBits 8) (seesaw.solveBetween (.ofBits 8) 0 3).network ∧
    (seesaw.solveBetween (.ofBits 8) 0 3).network.arcFlows (.ofBits 8) = .ok seesawFlows ∧
    costOfListing seesawFlows = 0 ∧ (0 : Int) ∈ IntRange.ofBits 8 ∧
    (seesaw.solveBetween (.ofBits 8) 0 3).network.flowCost (.ofBits 8) = .ok none ∧
    (seesaw.solveBetween (.ofBits 8) 0 3).outcome = .error (.error (.overflow .flowCost)) :=
  ⟨seesaw_reach, seesaw_solved.2, by decide, by decide, by decide +kernel, seesaw_solved.1⟩

/-- The same costs in another order can add up. -/
example : [⟨0, 1, 1, 100⟩, ⟨0, 2, 1, 100⟩, ⟨1, 3, 1, -100⟩].foldlM (Network.addCost (.ofBits 8)) 0 = none ∧
    [⟨0, 1, 1, 100⟩, ⟨0, 2, 1, -100⟩, ⟨1, 3, 1, 100⟩].foldlM (Network.addCost (.ofBits 8)) 0 = some 100 := by
  decide

end MinCostFlow
