/-
  MinCostFlow.Proofs.History.Basic — what calls do to a network whose arcs are there.

  Once the arcs are there a caller chooses terminals, solves, and augments along
  predecessors of its own, in any order and as often as it likes (`Call`). A call that
  returns has made some augmentations and leaves a network (`perform`): a solve that fails
  leaves the augmentations of its rounds in place, and any other call that fails changes
  nothing. A call that ends with a fault does not return, so nothing follows it.

  Whatever the calls were, nothing has happened to the network but that terminals were
  chosen and flow was sent along one path after the other (`History`). What is true of
  every such network is shown by induction on its history, and so it is of solves, of
  callers who drive the rounds themselves, and of any mixture of the two.

  Proved: calls that return leave a network with a history of the augmentations that they
  have made (`performAll_history`). Capacities and costs stay as they were
  (`History.frame`), and what holds of every network that callers can come to still holds
  (`History.sound`).
-/

import MinCostFlow.Proofs.Reach.Sound

namespace MinCostFlow

/-- What can be asked of a network without adding arcs. -/
inductive Call where
  | setTerminals (source sink : Nat)
  | solve
  | solveBetween (source sink : Nat)
  | augment (predecessors : Array (Option Nat)) (source sink : Nat)
  deriving DecidableEq, Repr

variable {n : Nat} {r : IntRange} {g g1 g' : Network n} {s t : Fin n} {as bs : List Augmentation}
  {call : Call} {calls : List Call}

/-- The augmentations that a solve has made and the network that it leaves, if it returns. -/
def Solution.returned (x : Solution n) : Except Fault (List Augmentation × Network n) :=
  match x.outcome with
  | .error (.fault f) => .error f
  | _ => .ok (x.augmentations, x.network)

namespace Network

/-- The augmentations that a call has made and the network that it leaves, if it returns. -/
def perform (r : IntRange) (g : Network n) : Call → Except Fault (List Augmentation × Network n)
  | .setTerminals source sink =>
    match g.setTerminals source sink with
    | .ok g' => .ok ([], g')
    | .error _ => .ok ([], g)
  | .solve => (g.solve r).returned
  | .solveBetween source sink => (g.solveBetween r source sink).returned
  | .augment predecessors source sink =>
    match g.augment r predecessors source sink with
    | .ok (a, g') => .ok ([a], g')
    | .error (.error _) => .ok ([], g)
    | .error (.fault f) => .error f

/-- One call after the other. -/
def performAll (r : IntRange) (g : Network n) : List Call → Except Fault (List Augmentation × Network n)
  | [] => .ok ([], g)
  | call :: calls => do
    let (as, g1) ← perform r g call
    let (bs, g') ← performAll r g1 calls
    return (as ++ bs, g')

end Network

/-- From `g` to another network by choosing terminals and sending flow along paths. -/
inductive History (r : IntRange) (g : Network n) : List Augmentation → Network n → Prop
  | start : History r g [] g
  | choose {as : List Augmentation} {g1 : Network n} (source sink : Nat) :
      History r g as g1 → History r g as { g1 with source := source, sink := sink }
  | push {as : List Augmentation} {g1 g' : Network n} {s t : Fin n} {arcs : List (Fin n × Fin n)}
      {a : Augmentation} : History r g as g1 → Pushed r g1 s t arcs a g' → History r g (as ++ [a]) g'

theorem History.trans (h : History r g as g1) (h' : History r g1 bs g') : History r g (as ++ bs) g' := by
  induction h' with
  | start => rwa [List.append_nil]
  | choose source sink _ ih => exact ih.choose source sink
  | push _ hp ih =>
    rw [← List.append_assoc]
    exact ih.push hp

/-! ## Calls leave histories -/

theorem Rounds.history (h : Rounds r s t g as g') : History r g as g' := by
  induction h with
  | none => exact .start
  | cons h _ ih =>
    obtain ⟨_, _, _, hp, _⟩ := h.pushed
    exact (History.start.push hp).trans ih

theorem solveBetween_history (r : IntRange) (g : Network n) (source sink : Nat) :
    History r g (g.solveBetween r source sink).augmentations (g.solveBetween r source sink).network := by
  rcases Network.solveBetween_rounds r g source sink with ⟨has, hg⟩ | ⟨s, t, -, -, -, h⟩
  · rw [has, hg]
    exact .start
  · exact h.history

theorem Solution.returned_eq_ok {x : Solution n} (h : x.returned = .ok (as, g')) :
    x.augmentations = as ∧ x.network = g' := by
  unfold Solution.returned at h
  split at h
  · cases h
  · exact Prod.mk.inj (Except.ok.inj h)

theorem perform_history (h : g.perform r call = .ok (as, g')) : History r g as g' := by
  cases call with
  | setTerminals source sink =>
    simp only [Network.perform] at h
    split at h
    · rename_i ht
      cases h
      obtain ⟨_, _, -, -, rfl⟩ := Network.setTerminals_eq_ok.mp ht
      exact History.start.choose source sink
    · cases h
      exact .start
  | solve =>
    obtain ⟨rfl, rfl⟩ := Solution.returned_eq_ok h
    exact solveBetween_history r g g.source g.sink
  | solveBetween source sink =>
    obtain ⟨rfl, rfl⟩ := Solution.returned_eq_ok h
    exact solveBetween_history r g source sink
  | augment predecessors source sink =>
    simp only [Network.perform] at h
    split at h
    · rename_i ha
      cases h
      obtain ⟨-, s, t, arcs, -, -, hp⟩ := augment_eq_ok ha
      exact History.start.push hp
    · cases h
      exact .start
    · cases h

theorem performAll_history (h : g.performAll r calls = .ok (as, g')) : History r g as g' := by
  induction calls generalizing g as with
  | nil =>
    cases h
    exact .start
  | cons call calls ih =>
    simp only [Network.performAll, bind_eq_ok, pure_eq_ok] at h
    obtain ⟨⟨as, g1⟩, hcall, ⟨bs, g2⟩, hcalls, h⟩ := h
    cases h
    exact (perform_history hcall).trans (ih hcalls)

/-! ## What a history keeps -/

namespace History

theorem frame (h : History r g as g') : g'.capacity = g.capacity ∧ g'.cost = g.cost := by
  induction h with
  | start => exact ⟨rfl, rfl⟩
  | choose _ _ _ ih => exact ih
  | push _ hp ih => exact ⟨hp.capacity_eq.trans ih.1, hp.cost_eq.trans ih.2⟩

theorem sound (h : History r g as g') (hg : Sound r g) : Sound r g' := by
  induction h with
  | start => exact hg
  | choose source sink _ ih => exact ih.withTerminals source sink
  | push _ hp ih => exact hp.sound ih

end History

/-! ## Calls to look at -/

/-- The opposite arcs between `0` and `1` share their costs. -/
def twoWay : Network 5 :=
  ((((((Network.empty 5).setArc 0 1 30 1).setArc 1 0 5 2).setArc 0 2 100 1).setArc 2 1 100 1).setArc 2 3 7 4).setArc
    3 4 9 (-6)

theorem twoWay_built : Built (.ofBits 8) twoWay :=
  (built_empty (by decide)).setArcs
    [(0, 1, 30, 1), (1, 0, 5, 2), (0, 2, 100, 1), (2, 1, 100, 1), (2, 3, 7, 4), (3, 4, 9, -6)] (by decide)

/-- The first solve fails in its second round, and the two calls after the second solve are refused. -/
def twoWayCalls : List Call :=
  [.solveBetween 0 1, .solveBetween 1 0, .augment #[none, some 2, some 0] 0 1, .setTerminals 0 5,
    .setTerminals 0 4, .solve]

def twoWayAugmentations : List Augmentation := [⟨[0, 1], 30, -2⟩, ⟨[1, 0], 35, 2⟩, ⟨[0, 2, 3, 4], 7, -1⟩]

def twoWayFlows : List ArcFlow := [⟨0, 2, 7, 1⟩, ⟨1, 0, 5, 2⟩, ⟨2, 3, 7, 4⟩, ⟨3, 4, 7, -6⟩]

set_option synthInstance.maxSize 256 in
/-- One more solve takes back what the last one has sent. -/
theorem twoWay_performed : ∃ g', twoWay.performAll (.ofBits 8) twoWayCalls = .ok (twoWayAugmentations, g') ∧
    g'.arcFlows (.ofBits 8) = .ok twoWayFlows ∧ g'.flowCost (.ofBits 8) = .ok (some 3) ∧
    (g'.solveBetween (.ofBits 8) 4 0).outcome = .ok ⟨79, 10, [⟨[4, 3, 2, 0], 7, 1⟩]⟩ := by
  have h : (twoWay.performAll (.ofBits 8) twoWayCalls).map (fun x => (x.1, x.2.arcFlows (.ofBits 8),
      x.2.flowCost (.ofBits 8), (x.2.solveBetween (.ofBits 8) 4 0).outcome)) =
      .ok (twoWayAugmentations, .ok twoWayFlows, .ok (some 3), .ok ⟨79, 10, [⟨[4, 3, 2, 0], 7, 1⟩]⟩) := by
    decide +kernel
  obtain ⟨⟨as, g'⟩, hcalls, h⟩ := map_eq_ok.mp h
  simp only [Prod.mk.injEq] at h
  obtain ⟨rfl, hflows, hcost, hsolve⟩ := h
  exact ⟨g', hcalls, hflows, hcost, hsolve⟩

end MinCostFlow
