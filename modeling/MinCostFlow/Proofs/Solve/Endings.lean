/-
  MinCostFlow.Proofs.Solve.Endings — how a round can end, and with it a solve.

  The predecessors that a search leaves lead back to the source, or into a cycle of parents:
  every vertex on the way has a label, and only the source has one without a parent
  (`Grounded.traceBack_cases`). So a round between different vertices ends in one of five
  ways: a label overflows, the search is crowded, the sink is out of reach, the way back runs
  into a cycle, or flow is tried along a path (`RoundEnds`). A solve goes on until a round does
  not make an augmentation, and ends with what that round ends with (`exhaust_ends`), unless it
  cannot give the cost of the flow.

  Proved, of every network that callers can come to: each failure of a solve is one of these
  (`solveBetween_eq_error`), and no solve ends with a fault unless its last search is crowded
  (`solveBetween_fault_iff`).
-/

import MinCostFlow.Proofs.Augmentation.Attempt
import MinCostFlow.Proofs.Flow.Listing
import MinCostFlow.Proofs.Search.Bounds
import MinCostFlow.Proofs.Search.Counting
import MinCostFlow.Proofs.Search.Parents

namespace MinCostFlow

variable {n : Nat} {r : IntRange} {g : Network n} {s t u : Fin n} {labels : Labels n} {l : Label n}
  {e : Failure SolveError} {arcs : List (Fin n × Fin n)} {source sink : Nat}

/-! ## The way back through the parents -/

namespace Labels

/-- A way through predecessors is a way down through the vertices that they name. -/
theorem exists_descent {w : List (Nat × Nat)} (h : ∀ a ∈ w, labels.predecessors[a.2]? = some (some a.1)) :
    ∃ arcs, w = arcs.map (Prod.map Fin.val Fin.val) ∧ labels.Descends arcs := by
  induction w with
  | nil => exact ⟨[], rfl, by simp [Descends]⟩
  | cons a w ih =>
    obtain ⟨arcs, rfl, hd⟩ := ih fun b hb => h b (List.mem_cons_of_mem a hb)
    obtain ⟨v, u, l, hv, hu, hl, hp⟩ := exists_of_predecessor (h a (List.mem_cons_self ..))
    refine ⟨(u, v) :: arcs, ?_, fun b hb => ?_⟩
    · rw [List.map_cons]
      exact congrArg (· :: _) (Prod.ext hu.symm hv.symm)
    · rcases List.mem_cons.mp hb with rfl | hb
      · exact ⟨l, hl, hp⟩
      · exact hd b hb

theorem Grounded.labelled_above (h : Grounded g s labels) (hw : Leads u arcs t) (hd : labels.Descends arcs)
    (ht : labels.label t = some l) : ∃ m, labels.label u = some m := by
  cases arcs with
  | nil =>
    obtain rfl := hw
    exact ⟨l, ht⟩
  | cons a arcs =>
    obtain ⟨rfl, -⟩ := hw
    obtain ⟨m, hm, hp⟩ := hd a (List.mem_cons_self ..)
    obtain ⟨-, m', hm', -⟩ := h.parent a.2 m a.1 hm hp
    exact ⟨m', hm'⟩

/-- From a vertex with a label the way back comes to the source, or it is given up on a cycle after
as many steps as there are vertices. -/
theorem Grounded.traceBack_cases (h : Grounded g s labels) (ht : labels.label t = some l) :
    (∃ path arcs, traceBack labels.predecessors s t = .ok path ∧
      hops path = arcs.map (Prod.map Fin.val Fin.val) ∧ labels.Descends arcs) ∨
    ∃ v : Fin n, labels.OnCycle v ∧ traceBack labels.predecessors s t = .error (.error (.brokenTree t v n)) := by
  cases hx : traceBack labels.predecessors s t with
  | ok path =>
    have htraced := traceBack_eq_ok hx
    obtain ⟨arcs, harcs, hd⟩ := exists_descent fun a ha => (htraced.of_mem_hops ha).1
    exact Or.inl ⟨path, arcs, rfl, harcs, hd⟩
  | error e =>
    obtain ⟨v, w, hw, he⟩ := traceBack_eq_error hx
    obtain ⟨arcs, rfl, hd⟩ := exists_descent hw.linked
    obtain ⟨v, rfl⟩ : ∃ x : Fin n, x.val = v := by
      cases arcs with
      | nil => exact ⟨t, hw.leads.symm⟩
      | cons a _ => exact ⟨a.1, hw.leads.1⟩
    have hl := leads_of_names hw.leads
    obtain ⟨m, hm⟩ := h.labelled_above hl hd ht
    have hpre := labels.predecessors_getElem? v
    rw [hm, Option.bind_some] at hpre
    rw [hpre] at he
    rcases he with ⟨hnone, -⟩ | ⟨hend, rfl⟩
    · cases hnone
    have hlen : arcs.length = n := by
      rcases hend with hroot | hlen
      · -- only the source has no parent, and the way back would have ended there
        have hparent : m.parent = none := by simpa using hroot
        exact absurd (congrArg Fin.val (h.root v m hm hparent).1) hw.ne_source
      · simpa using hlen
    refine Or.inr ⟨v, onCycle_of_length hl hd hlen.ge, ?_⟩
    rw [List.length_map, hlen]

end Labels

/-! ## Rounds -/

/-- How a round between `s` and `t` can end. -/
inductive RoundEnds (r : IntRange) (g : Network n) (s t : Fin n) :
    Except (Failure SolveError) (Option (Augmentation × Network n)) → Prop
  | costLabel : (g.search r s).labels = .error (.error (.overflow .costLabel)) →
      RoundEnds r g s t (.error (.error (.overflow .costLabel)))
  | crowded : g.Crowded r s → RoundEnds r g s t (.error (.fault .counterOverflow))
  | unreached {labels : Labels n} : (g.search r s).labels = .ok labels → labels.treeTo t = none →
      RoundEnds r g s t (.ok none)
  | cycle {labels : Labels n} {v : Fin n} : (g.search r s).labels = .ok labels → labels.OnCycle v →
      RoundEnds r g s t (.error (.error (.brokenTree t v n)))
  | attempt {arcs : List (Fin n × Fin n)} {b : Int} {x : Except (Failure SolveError) (Augmentation × Network n)} :
      Passable g s t arcs b → Attempt r g arcs b x → RoundEnds r g s t (x.map some)

/-- A round fails with an overflow of what it calculates or counts, or on a cycle of parents. -/
theorem RoundEnds.of_error (h : RoundEnds r g s t (.error e)) :
    (∃ c, c ≠ .flowCost ∧ e = .error (.overflow c)) ∨ (g.Crowded r s ∧ e = .fault .counterOverflow) ∨
    ∃ (labels : Labels n) (v : Fin n), (g.search r s).labels = .ok labels ∧ labels.OnCycle v ∧
      e = .error (.brokenTree t v n) := by
  generalize hx : Except.error e = x at h
  cases h with
  | costLabel =>
    obtain rfl := Except.error.inj hx
    exact Or.inl ⟨.costLabel, by decide, rfl⟩
  | crowded hc =>
    obtain rfl := Except.error.inj hx
    exact Or.inr (Or.inl ⟨hc, rfl⟩)
  | unreached => cases hx
  | cycle hl hv =>
    obtain rfl := Except.error.inj hx
    exact Or.inr (Or.inr ⟨_, _, hl, hv, rfl⟩)
  | attempt _ h =>
    cases h with
    | pathCost =>
      obtain rfl := Except.error.inj hx
      exact Or.inl ⟨.pathCost, by decide, rfl⟩
    | totalFlow =>
      obtain rfl := Except.error.inj hx
      exact Or.inl ⟨.totalFlow, by decide, rfl⟩
    | reverseResidual =>
      obtain rfl := Except.error.inj hx
      exact Or.inl ⟨.reverseResidual, by decide, rfl⟩
    | sent => cases hx

theorem RoundEnds.of_fault {f : Fault} (h : RoundEnds r g s t (.error (.fault f))) :
    .counterOverflow = f ∧ g.Crowded r s := by
  rcases h.of_error with ⟨_, -, he⟩ | ⟨hc, he⟩ | ⟨_, _, -, -, he⟩
  · cases he
  · exact ⟨(Failure.fault.inj he).symm, hc⟩
  · cases he

namespace Network

/-- A round of a solve. -/
def turn (r : IntRange) (g : Network n) (s t : Fin n) :
    Except (Failure SolveError) (Option (Augmentation × Network n)) :=
  advance r g s t ((g.search r s).treeTo t)

theorem advance_tree (r : IntRange) (g : Network n) (s t : Fin n) (tree : PredecessorTree) :
    advance r g s t (.ok (some tree)) = (g.augment r tree.predecessors s t).map some := by
  show (g.augment r tree.predecessors s t >>= _) = _
  cases g.augment r tree.predecessors s t with
  | ok x => rfl
  | error e => rfl

theorem turn_ends (hg : Sound r g) (hst : s ≠ t) : RoundEnds r g s t (g.turn r s t) := by
  unfold turn
  cases hl : (g.search r s).labels with
  | error e =>
    rw [Search.treeTo_eq_error.mpr hl]
    cases e with
    | error d =>
      obtain rfl := search_eq_error hl
      exact .costLabel hl
    | fault f =>
      obtain ⟨rfl, hc⟩ := search_fault_iff.mp hl
      exact .crowded hc
  | ok labels =>
    rw [Search.treeTo_eq_ok.mpr ⟨labels, hl, rfl⟩]
    cases ht : labels.treeTo t with
    | none => exact .unreached hl ht
    | some tree =>
      obtain ⟨c, u, hlt, rfl⟩ := Labels.treeTo_eq_some.mp ht
      rw [advance_tree]
      have hgrounded := search_grounded hg.residual_nonneg hl
      rcases hgrounded.traceBack_cases hlt with ⟨path, arcs, hpath, harcs, hd⟩ | ⟨v, hv, hback⟩
      · obtain ⟨b, hpass, hattempt⟩ := augment_attempt hg hpath harcs hst (hgrounded.isOpen hd)
        exact .attempt hpass hattempt
      · have herror : g.augment r labels.predecessors s t = .error (.error (.brokenTree t v n)) := by
          rw [augment, hback]
          rfl
        rw [herror]
        exact .cycle hl hv

/-- What is noted of a round. -/
def noted (r : IntRange) (g : Network n) (s t : Fin n) (a : Option Augmentation) : Round :=
  ⟨(g.search r s).improvements, ((g.search r s).treeTo t).toOption.join.map (·.sinkCost), a⟩

theorem exhaust_eq (r : IntRange) (g : Network n) (s t : Fin n) : g.exhaust r s t =
    match g.turn r s t with
    | .error e => ⟨[g.noted r s t none], g, .error e⟩
    | .ok none => ⟨[g.noted r s t none], g, .ok ()⟩
    | .ok (some (a, g')) => (g'.exhaust r s t).after (g.noted r s t (some a)) := by
  rw [exhaust]
  unfold turn noted
  split
  · rename_i h
    rw [h]
  · rename_i h
    rw [h]
  · rename_i h
    rw [h]

/-- A run is over with the first round that makes no augmentation. -/
theorem exhaust_ends (r : IntRange) (g : Network n) (s t : Fin n) :
    (g.exhaust r s t).network.turn r s t = (g.exhaust r s t).ending.map fun _ => none := by
  fun_induction exhaust r g s t with
  | case1 g found tree label e h => exact h
  | case2 g found tree label h => exact h
  | case3 g found tree label a g' h ih => exact ih

end Network

/-! ## Solves -/

theorem Run.result_eq_error {x : Run n} (hx : Sound r x.network) (h : x.result r = .error e) :
    x.ending = .error e ∨ x.network.flowCost r = .ok none ∧ e = .error (.overflow .flowCost) := by
  rcases bind_eq_error.mp h with h | ⟨_, -, h⟩
  · exact Or.inl h
  obtain ⟨total, htotal⟩ := Network.flowCost_returns hx
  rcases bind_eq_error.mp h with h | ⟨_, htotal', h⟩
  · rw [htotal] at h
    cases h
  rcases bind_eq_error.mp h with h | ⟨_, -, h⟩
  · obtain ⟨rfl, rfl⟩ := expect_eq_error.mp h
    exact Or.inr ⟨orFault_eq_ok.mp htotal', rfl⟩
  · cases h

/-- A run gives no answer because of the round that it ends with, or because the cost of the flow is
out of range. -/
theorem exhaust_result_eq_error (hg : Sound r g) (hst : s ≠ t) (h : (g.exhaust r s t).result r = .error e) :
    RoundEnds r (g.exhaust r s t).network s t (.error e) ∨
      (g.exhaust r s t).network.flowCost r = .ok none ∧ e = .error (.overflow .flowCost) := by
  have hfinal := (Network.exhaust_rounds r g s t).sound hg
  rcases Run.result_eq_error hfinal h with hend | hcost
  · have hturn := Network.turn_ends hfinal hst
    rw [Network.exhaust_ends, hend] at hturn
    exact Or.inl hturn
  · exact Or.inr hcost

namespace Network

theorem terminals_eq_error {e : SolveError} (h : terminals n source sink = .error e) :
    (∃ d, e = .terminal d) ∨ ∃ v, e = .sameTerminals v := by
  have hvertex : ∀ v, (vertex n v).mapError SolveError.terminal = .error e → ∃ d, e = .terminal d := by
    intro v hv
    cases hx : vertex n v with
    | ok u => simp [hx, Except.mapError] at hv
    | error d =>
      rw [hx] at hv
      exact ⟨d, (Except.error.inj hv).symm⟩
  rcases bind_eq_error.mp h with h | ⟨_, -, h⟩
  · exact Or.inl (hvertex source h)
  rcases bind_eq_error.mp h with h | ⟨_, -, h⟩
  · exact Or.inl (hvertex sink h)
  rcases bind_eq_error.mp h with h | ⟨_, -, h⟩
  · exact Or.inr ⟨source, (demand_eq_error.mp h).2.symm⟩
  · cases h

/-- A solve fails because its terminals cannot be used, with the round that it ends with, or because
the cost of the flow is out of range. -/
theorem solveBetween_eq_error (hg : Sound r g) (h : (g.solveBetween r source sink).outcome = .error e) :
    (∃ d, e = .error (.terminal d)) ∨ (∃ v, e = .error (.sameTerminals v)) ∨
    ∃ s t : Fin n, s.val = source ∧ t.val = sink ∧ s ≠ t ∧
      Rounds r s t g (g.solveBetween r source sink).augmentations (g.solveBetween r source sink).network ∧
      (RoundEnds r (g.solveBetween r source sink).network s t (.error e) ∨
        (g.solveBetween r source sink).network.flowCost r = .ok none ∧ e = .error (.overflow .flowCost)) := by
  cases hx : terminals n source sink with
  | error d =>
    rw [solveBetween, hx] at h
    obtain rfl := Except.error.inj h
    rcases terminals_eq_error hx with ⟨x, rfl⟩ | ⟨v, rfl⟩
    · exact Or.inl ⟨x, rfl⟩
    · exact Or.inr (Or.inl ⟨v, rfl⟩)
  | ok p =>
    obtain ⟨s, t⟩ := p
    obtain ⟨rfl, rfl, hst⟩ := terminals_eq_ok.mp hx
    rw [solveBetween_eq r g hst] at h ⊢
    have hend := exhaust_result_eq_error hg hst h
    exact Or.inr (Or.inr ⟨s, t, rfl, rfl, hst, exhaust_rounds r g s t, hend⟩)

end Network

theorem Network.turn_crowded (h : g.Crowded r s) : g.turn r s t = .error (.fault .counterOverflow) := by
  rw [turn, Search.treeTo_eq_error.mpr (search_crowded h)]
  rfl

/-- Such a solve is over with its first search. -/
theorem solveBetween_crowded (hst : s ≠ t) (h : g.Crowded r s) :
    (g.solveBetween r s t).outcome = .error (.fault .counterOverflow) := by
  rw [Network.solveBetween_eq r g hst, Network.exhaust_eq, Network.turn_crowded h]
  rfl

/-- A solve of a network that callers can come to ends with a fault where its last search is crowded, and
nowhere else. -/
theorem solveBetween_fault_iff {f : Fault} (hg : Sound r g) (source sink : Nat) :
    (g.solveBetween r source sink).outcome = .error (.fault f) ↔ .counterOverflow = f ∧
      ∃ s t : Fin n, s.val = source ∧ t.val = sink ∧ s ≠ t ∧ (g.solveBetween r source sink).network.Crowded r s := by
  constructor
  · intro h
    rcases Network.solveBetween_eq_error hg h with ⟨_, h⟩ | ⟨_, h⟩ | ⟨s, t, hs, ht, hst, -, h | ⟨-, h⟩⟩
    · cases h
    · cases h
    · obtain ⟨rfl, hc⟩ := h.of_fault
      exact ⟨rfl, s, t, hs, ht, hst, hc⟩
    · cases h
  · rintro ⟨rfl, s, t, rfl, rfl, hst, hc⟩
    rw [Network.solveBetween_eq r g hst] at hc ⊢
    have hend := Network.exhaust_ends r g s t
    rw [Network.turn_crowded hc] at hend
    show (g.exhaust r s t).result r = _
    cases hx : (g.exhaust r s t).ending with
    | ok u =>
      rw [hx] at hend
      cases hend
    | error e =>
      rw [hx] at hend
      obtain rfl := Except.error.inj hend
      rw [Run.result, hx]
      rfl

/-- So it ends with a result or with an error that the caller can handle, or with that fault. -/
theorem solveBetween_returns (hg : Sound r g) (source sink : Nat) :
    (∃ result, (g.solveBetween r source sink).outcome = .ok result) ∨
    (∃ e, (g.solveBetween r source sink).outcome = .error (.error e)) ∨
    (g.solveBetween r source sink).outcome = .error (.fault .counterOverflow) := by
  cases hx : (g.solveBetween r source sink).outcome with
  | ok result => exact Or.inl ⟨result, rfl⟩
  | error e =>
    cases e with
    | error e => exact Or.inr (Or.inl ⟨e, rfl⟩)
    | fault f =>
      obtain ⟨rfl, -⟩ := (solveBetween_fault_iff hg source sink).mp hx
      exact Or.inr (Or.inr rfl)

end MinCostFlow
