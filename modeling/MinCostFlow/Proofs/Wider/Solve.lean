/-
  MinCostFlow.Proofs.Wider.Solve — solving in a wider range.

  A round begins with a search. If no label overflows, every relaxation has been the same in
  the wider range, and so have the passes and their counts, also where there is too much to
  count (`correct_wider`). What is left of the round reads the predecessors, compares residual
  capacities, and adds and subtracts numbers of which each result is checked. So a round is
  the same, or ends with a failure that is due to the range (`round_wider`), and with it a run:
  each round starts from the network that the one before it has left (`exhaust_wider`).

  All faults but that of a counter count as due to the range here. Networks that callers can
  come to have none of them.

  Proved: a solve that does not end with an overflow is the same in every wider range
  (`solveBetween_wider`): its rounds, its network and its outcome.
-/

import MinCostFlow.Proofs.Solve.Endings
import MinCostFlow.Proofs.Wider.Basic

namespace MinCostFlow

open Labels

variable {n k : Nat} {r wide : IntRange} {g : Network n} {s t u v : Fin n} {arcs : List (Fin n × Fin n)}
  {labels final : Labels n} {source sink : Nat} {c : Int}

/-- A failure that a range can be to blame for. -/
inductive OutOfRange : Failure SolveError → Prop
  | overflow (during : Calculation) : OutOfRange (.error (.overflow during))
  | fault {f : Fault} : f ≠ .counterOverflow → OutOfRange (.fault f)

/-! ## Searching -/

section

variable (h : r ⊆ wide)

include h

theorem improve_agrees (labels : Labels n) (u v : Fin n) :
    Agrees (· = .overflow .costLabel) (improve r g labels u v) (improve wide g labels u v) := by
  unfold improve
  cases labels.label u with
  | none => exact .same _
  | some l =>
    refine Agrees.bind (.require h ?_ _) fun c => .same _
    rfl

theorem relax_agrees (p : Pass n) (u v : Fin n) : Agrees OutOfRange (relax r g p u v) (relax wide g p u v) := by
  unfold relax
  refine Agrees.bind ((improve_agrees h p.labels u v).orError ?_) fun better? => .same _
  rintro _ rfl
  exact .overflow .costLabel

theorem correct_wider (k : Nat) (labels : Labels n) :
    (∃ e, OutOfRange e ∧ (g.correct r arcs k labels).labels = .error e) ∨
    g.correct wide arcs k labels = g.correct r arcs k labels := by
  induction k generalizing labels with
  | zero => exact Or.inr rfl
  | succ k ih =>
    have hpass : Agrees OutOfRange (relaxAll r g arcs labels) (relaxAll wide g arcs labels) := by
      unfold relaxAll
      exact Agrees.foldlM (fun p (a : Fin n × Fin n) => relax_agrees h p a.1 a.2) _
    simp only [Network.correct]
    generalize relaxAll r g arcs labels = x at hpass ⊢
    generalize relaxAll wide g arcs labels = y at hpass ⊢
    cases hpass with
    | refused y he => exact Or.inl ⟨_, he, rfl⟩
    | same =>
      cases x with
      | error e => exact Or.inr rfl
      | ok p =>
        by_cases h0 : p.improved = 0
        · simp only [h0, if_true, or_true]
        · simp only [h0, if_false]
          rcases ih p.labels with hover | hsame
          · exact Or.inl hover
          · exact Or.inr (by rw [hsame])

/-! ## Augmenting -/

theorem unitCost_wider (hc : g.unitCost? r arcs = some c) : g.unitCost? wide arcs = some c :=
  foldlM_wider (fun _ _ _ hx => fit?_wider h hx) hc

theorem send_agrees (amount : Int) (m : Matrix n) (u v : Fin n) :
    Agrees (· ≠ .counterOverflow) (Network.send r amount m u v) (Network.send wide amount m u v) := by
  unfold Network.send
  refine (Agrees.require h (by decide) _).bind fun left => ?_
  exact (Agrees.require h (by decide) _).bind fun back => .same _

theorem sendAlong_agrees (g : Network n) (arcs : List (Fin n × Fin n)) (a : Augmentation) (totalFlow : Int) :
    Agrees (· ≠ .counterOverflow) (g.sendAlong r arcs a totalFlow) (g.sendAlong wide arcs a totalFlow) := by
  unfold Network.sendAlong
  refine Agrees.bind (Agrees.foldlM (fun m x => ?_) _) fun residual => .same _
  exact send_agrees h _ m x.1 x.2

theorem augment_agrees (g : Network n) (predecessors : Array (Option Nat)) (source sink : Nat) :
    Agrees OutOfRange (g.augment r predecessors source sink) (g.augment wide predecessors source sink) := by
  unfold Network.augment
  refine .andThen fun path => .andThen fun arcs => .andThen fun bottleneck => .andThen fun _ => ?_
  refine (Agrees.expect (fun c hc => unitCost_wider h hc) (.overflow _)).bind fun cost => ?_
  refine (Agrees.require h (.overflow _) _).bind fun totalFlow => ?_
  refine (Agrees.demand ?_ (.overflow _)).bind fun _ => ?_
  · intro hback
    simp only [List.all_eq_true, decide_eq_true_eq] at hback ⊢
    exact fun a ha => h _ (hback a ha)
  · have hsent := sendAlong_agrees h g arcs ⟨path, bottleneck, cost⟩ totalFlow
    exact (hsent.orFault fun _ hf => .fault hf).bind fun g' => .same _

/-! ## Rounds -/

theorem advance_agrees (g : Network n) (s t : Fin n) (tree : Except (Failure SolveError) (Option PredecessorTree)) :
    Agrees OutOfRange (g.advance r s t tree) (g.advance wide s t tree) := by
  unfold Network.advance
  refine .andThen fun tree => ?_
  cases tree with
  | none => exact .same _
  | some tree => exact (augment_agrees h g _ _ _).bind fun x => .same _

/-- A round is the same and noted the same, unless it ends with a failure that the range is to blame
for. -/
theorem round_wider (g : Network n) (s t : Fin n) : (∃ e, OutOfRange e ∧ g.turn r s t = .error e) ∨
    (∀ a, g.noted wide s t a = g.noted r s t a) ∧ g.turn wide s t = g.turn r s t := by
  have hsearches : (∃ e, OutOfRange e ∧ (g.search r s).labels = .error e) ∨ g.search wide s = g.search r s :=
    correct_wider h n (start s)
  rcases hsearches with ⟨e, he, hl⟩ | hsearch
  · refine Or.inl ⟨e, he, ?_⟩
    rw [Network.turn, Search.treeTo_eq_error.mpr hl]
    rfl
  · have hnoted : ∀ a, g.noted wide s t a = g.noted r s t a := fun a => by rw [Network.noted, Network.noted, hsearch]
    have hagrees := advance_agrees h g s t ((g.search r s).treeTo t)
    rw [Network.turn, Network.turn, hsearch]
    generalize g.advance r s t ((g.search r s).treeTo t) = x at hagrees ⊢
    generalize g.advance wide s t ((g.search r s).treeTo t) = y at hagrees ⊢
    cases hagrees with
    | same => exact Or.inr ⟨hnoted, rfl⟩
    | refused y he => exact Or.inl ⟨_, he, rfl⟩

theorem exhaust_wider (g : Network n) (s t : Fin n) : (∃ e, OutOfRange e ∧ (g.exhaust r s t).ending = .error e) ∨
    g.exhaust wide s t = g.exhaust r s t := by
  fun_induction Network.exhaust r g s t with
  | case1 g found tree label e hround =>
    have hturn : g.turn r s t = .error e := hround
    rcases round_wider h g s t with ⟨e', he, hx⟩ | ⟨hnoted, hx⟩
    · obtain rfl := Except.error.inj (hturn.symm.trans hx)
      exact Or.inl ⟨e, he, rfl⟩
    · refine Or.inr ?_
      rw [Network.exhaust_eq wide, hx, hturn]
      show (⟨[g.noted wide s t none], _, _⟩ : Run n) = _
      rw [hnoted]
      rfl
  | case2 g found tree label hround =>
    have hturn : g.turn r s t = .ok none := hround
    rcases round_wider h g s t with ⟨e', he, hx⟩ | ⟨hnoted, hx⟩
    · cases hturn.symm.trans hx
    · refine Or.inr ?_
      rw [Network.exhaust_eq wide, hx, hturn]
      show (⟨[g.noted wide s t none], _, _⟩ : Run n) = _
      rw [hnoted]
      rfl
  | case3 g found tree label a g' hround ih =>
    have hturn : g.turn r s t = .ok (some (a, g')) := hround
    rcases round_wider h g s t with ⟨e', he, hx⟩ | ⟨hnoted, hx⟩
    · cases hturn.symm.trans hx
    · rcases ih with hend | ih
      · exact Or.inl hend
      · refine Or.inr ?_
        rw [Network.exhaust_eq wide, hx, hturn]
        show (g'.exhaust wide s t).after (g.noted wide s t (some a)) = _
        rw [hnoted, ih]
        rfl

/-! ## Solves -/

theorem addCost_wider {total y : Int} {x : ArcFlow} (hy : Network.addCost r total x = some y) :
    Network.addCost wide total x = some y := by
  simp only [Network.addCost, Option.bind_eq_bind, Option.bind_eq_some_iff] at hy ⊢
  obtain ⟨c, hc, hy⟩ := hy
  exact ⟨c, fit?_wider h hc, fit?_wider h hy⟩

theorem arcFlows_agrees (g : Network n) : Agrees (fun _ => True) (g.arcFlows r) (g.arcFlows wide) := by
  unfold Network.arcFlows
  refine Agrees.bind (Agrees.mapM fun p => ?_) fun flows => .same _
  exact (Agrees.require h trivial _).bind fun flow => .same _

theorem flowCost_wider (hc : g.flowCost r = .ok (some c)) : g.flowCost wide = .ok (some c) := by
  obtain ⟨flows, hflows, hfold⟩ := map_eq_ok.mp hc
  exact map_eq_ok.mpr ⟨flows, (arcFlows_agrees h g).ok hflows, foldlM_wider (fun _ _ _ => addCost_wider h) hfold⟩

theorem result_agrees {x : Run n} (hx : Sound r x.network) : Agrees OutOfRange (x.result r) (x.result wide) := by
  unfold Run.result
  refine .andThen fun _ => ?_
  obtain ⟨answer, hcost⟩ := Network.flowCost_returns hx
  rw [hcost]
  cases answer with
  | none => exact .refused _ (.overflow .flowCost)
  | some c =>
    rw [flowCost_wider h hcost]
    exact .same _

end

/-- The range only decides whether a solve overflows. -/
theorem solveBetween_wider (h : r ⊆ wide) (hg : Sound r g)
    (hx : ∀ c, (g.solveBetween r source sink).outcome ≠ .error (.error (.overflow c))) :
    g.solveBetween wide source sink = g.solveBetween r source sink := by
  have hblame : ∀ e, OutOfRange e → (g.solveBetween r source sink).outcome ≠ .error e := by
    intro e he
    cases he with
    | overflow c => exact hx c
    | fault hf =>
      intro hfault
      exact hf ((solveBetween_fault_iff hg source sink).mp hfault).1.symm
  cases hterminals : Network.terminals n source sink with
  | error e => rw [Network.solveBetween, Network.solveBetween, hterminals]
  | ok p =>
    obtain ⟨s, t⟩ := p
    obtain ⟨rfl, rfl, hst⟩ := Network.terminals_eq_ok.mp hterminals
    simp only [Network.solveBetween_eq r g hst, Network.solveBetween_eq wide g hst] at hblame ⊢
    rcases exhaust_wider h g s t with ⟨e, he, hend⟩ | hrun
    · refine absurd ?_ (hblame e he)
      rw [Run.result, hend]
      rfl
    · rw [hrun]
      have hagrees := result_agrees h ((Network.exhaust_rounds r g s t).sound hg)
      generalize (g.exhaust r s t).result r = x at hagrees hblame ⊢
      generalize (g.exhaust r s t).result wide = y at hagrees ⊢
      cases hagrees with
      | same => rfl
      | refused y he => exact absurd rfl (hblame _ he)

end MinCostFlow
