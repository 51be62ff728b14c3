/-
  MinCostFlow.Proofs.Unreached.Solve — what the source cannot reach is irrelevant.

  Two networks that are alike on a set with the source in it are solved in lockstep. Both
  searches are the same, and so are the predecessors and the way back. The path stays on the
  set, so all that is checked before flow is sent reads numbers that the networks share
  (`plan_congr`). Then both send the same along the same path and are alike again
  (`turn_paired`), although pairs have opened behind the flow.

  The set is the one of the vertices that capacity leads to from the source. Where nothing
  was sent yet, no residual capacity leaves it, and two networks are alike on it if they have
  the same capacities on the pairs that leave its vertices, and the same costs where there is
  such a capacity (`alike_of_untouched`).

  Proved: then solves from this source are the same, in their rounds and in their outcome
  (`solveBetween_ignores_unreached`). So neither loops nor costs of arcs without capacity nor
  anything at other vertices matters, be it a cycle of negative cost or a cost that would
  overflow if it was added to.
-/

import MinCostFlow.Proofs.Augmentation.Plan
import MinCostFlow.Proofs.Cut.Reachable
import MinCostFlow.Proofs.Solve.Endings
import MinCostFlow.Proofs.Unreached.Search

namespace MinCostFlow

variable {n : Nat} {r : IntRange} {g g' h h' : Network n} {s t : Fin n} {inside : Finset (Fin n)}
  {arcs : List (Fin n × Fin n)} {path : List Nat} {predecessors : Array (Option Nat)} {source sink : Nat}

/-! ## Rounds -/

/-- Two rounds that end alike. -/
inductive Paired (r : IntRange) (inside : Finset (Fin n)) :
    Except (Failure SolveError) (Option (Augmentation × Network n)) →
    Except (Failure SolveError) (Option (Augmentation × Network n)) → Prop
  | failed (e : Failure SolveError) : Paired r inside (.error e) (.error e)
  | unreached : Paired r inside (.ok none) (.ok none)
  | advanced {g h : Network n} (a : Augmentation) : Alike r inside g h →
      Paired r inside (.ok (some (a, g))) (.ok (some (a, h)))

namespace Paired

variable {e : Failure SolveError} {a : Augmentation} {y : Except (Failure SolveError) (Option (Augmentation × Network n))}

theorem eq_error (h : Paired r inside (.error e) y) : y = .error e := by
  cases h
  rfl

theorem eq_none (h : Paired r inside (.ok none) y) : y = .ok none := by
  cases h
  rfl

theorem eq_some (h : Paired r inside (.ok (some (a, g))) y) : ∃ g', y = .ok (some (a, g')) ∧ Alike r inside g g' := by
  cases h with
  | advanced _ hgh => exact ⟨_, rfl, hgh⟩

end Paired

namespace Alike

/-- The first network decides where both can send. -/
theorem isOpen (hgh : Alike r inside g h) {u v : Fin n} (hu : u ∈ inside) (ho : Open g.residual u v) :
    Open h.residual u v := by
  refine ⟨ho.1, ?_⟩
  rw [← hgh.residual u v hu ho.1]
  exact ho.2

theorem plan_eq (hgh : Alike r inside g h) (hs : s ∈ inside) (hw : Walk g.residual s arcs t) :
    g.plan r path arcs sink = h.plan r path arcs sink := by
  have harcs := (hgh.left.walk_inside hs hw).2
  refine Network.plan_congr hgh.totalFlow ?_ ?_ ?_
  · intro a ha
    exact hgh.residual a.1 a.2 (harcs a ha).1 (hw.isOpen a ha).1
  · intro a ha
    exact hgh.residual a.2 a.1 (harcs a ha).2 (hw.isOpen a ha).1.symm
  · intro a ha
    exact hgh.cost a.1 a.2 (harcs a ha).1 (hw.isOpen a ha)

theorem noted_eq (hgh : Alike r inside g h) (hs : s ∈ inside) (a : Option Augmentation) :
    g.noted r s t a = h.noted r s t a := by
  rw [Network.noted, Network.noted, hgh.search_eq hs]

variable (hgh : Alike r inside g h) (hs : s ∈ inside) (hst : s ≠ t)

include hgh hs hst

theorem augment_paired (hpath : traceBack predecessors s t = .ok path)
    (harcs : hops path = arcs.map (Prod.map Fin.val Fin.val)) (hopen : ∀ a ∈ arcs, Open g.residual a.1 a.2) :
    Paired r inside ((g.augment r predecessors s t).map some) ((h.augment r predecessors s t).map some) := by
  obtain ⟨b, hpass, -⟩ := augment_attempt hgh.left.sound hpath harcs hst hopen
  have hw : Walk g.residual s arcs t := ⟨hpass.leads, hopen⟩
  have hopen' : ∀ a ∈ arcs, Open h.residual a.1 a.2 := fun a ha =>
    hgh.isOpen ((hgh.left.walk_inside hs hw).2 a ha).1 (hopen a ha)
  have hplan : g.plan r path arcs t = h.plan r path arcs t := hgh.plan_eq hs hw
  cases hx : g.plan r path arcs t with
  | error e =>
    rw [Network.augment_eq_plan hpath harcs, Network.augment_eq_plan hpath harcs, ← hplan, hx]
    exact .failed e
  | ok x =>
    obtain ⟨g', hg'⟩ := augment_of_plan hgh.left.sound hpath harcs hx
    obtain ⟨h', hh'⟩ := augment_of_plan hgh.right.sound hpath harcs (hplan ▸ hx)
    rw [hg', hh']
    exact .advanced x.1 (hgh.pushed hs (augment_pushed hpath harcs hg') (augment_pushed hpath harcs hh'))

/-- The next round ends alike, and if it sends flow it leaves networks that are alike. -/
theorem turn_paired : Paired r inside (g.turn r s t) (h.turn r s t) := by
  unfold Network.turn
  rw [← hgh.search_eq hs]
  cases hl : (g.search r s).labels with
  | error e =>
    rw [Search.treeTo_eq_error.mpr hl]
    exact .failed _
  | ok labels =>
    rw [Search.treeTo_eq_ok.mpr ⟨labels, hl, rfl⟩]
    cases ht : labels.treeTo t with
    | none => exact .unreached
    | some tree =>
      obtain ⟨c, u, hlt, rfl⟩ := Labels.treeTo_eq_some.mp ht
      rw [Network.advance_tree, Network.advance_tree]
      have hgrounded := Network.search_grounded hgh.left.sound.residual_nonneg hl
      rcases hgrounded.traceBack_cases hlt with ⟨path, arcs, hpath, harcs, hd⟩ | ⟨v, -, hback⟩
      · exact hgh.augment_paired hs hst hpath harcs (hgrounded.isOpen hd)
      · rw [Network.augment, Network.augment, hback]
        exact .failed _

end Alike

/-- Two runs that went the same way, and the networks that they have left. -/
structure RunsAlike (r : IntRange) (inside : Finset (Fin n)) (x y : Run n) : Prop where
  rounds : x.rounds = y.rounds
  ending : x.ending = y.ending
  network : Alike r inside x.network y.network

theorem RunsAlike.result_eq {x y : Run n} (hxy : RunsAlike r inside x y) : x.result r = y.result r := by
  unfold Run.result Run.augmentations
  rw [hxy.rounds, hxy.ending, hxy.network.flowCost_eq, hxy.network.totalFlow]

theorem exhaust_alike (hs : s ∈ inside) (hst : s ≠ t) :
    ∀ h, Alike r inside g h → RunsAlike r inside (g.exhaust r s t) (h.exhaust r s t) := by
  fun_induction Network.exhaust r g s t with
  | case1 g found tree label e hround =>
    intro h hgh
    have hturn : g.turn r s t = .error e := hround
    have hpaired := hgh.turn_paired hs hst
    rw [hturn] at hpaired
    rw [Network.exhaust_eq r h, hpaired.eq_error]
    exact ⟨congrArg ([·]) (hgh.noted_eq hs none), rfl, hgh⟩
  | case2 g found tree label hround =>
    intro h hgh
    have hturn : g.turn r s t = .ok none := hround
    have hpaired := hgh.turn_paired hs hst
    rw [hturn] at hpaired
    rw [Network.exhaust_eq r h, hpaired.eq_none]
    exact ⟨congrArg ([·]) (hgh.noted_eq hs none), rfl, hgh⟩
  | case3 g found tree label a g' hround ih =>
    intro h hgh
    have hturn : g.turn r s t = .ok (some (a, g')) := hround
    have hpaired := hgh.turn_paired hs hst
    rw [hturn] at hpaired
    obtain ⟨h', hh', hnext⟩ := hpaired.eq_some
    rw [Network.exhaust_eq r h, hh']
    have hrest := ih h' hnext
    exact ⟨congrArg₂ List.cons (hgh.noted_eq hs (some a)) hrest.rounds, hrest.ending, hrest.network⟩

/-! ## Solves of untouched networks -/

theorem confined_of_untouched (hg : Untouched r g)
    (hclosed : ∀ u v, u ∈ inside → Open g.capacity u v → v ∈ inside) : Confined r inside g := by
  have hfresh := (untouched_fresh hg).1
  refine ⟨reach_sound hg.reach, ?_, ?_, ?_⟩
  · intro u v
    rw [fresh_sent hfresh, fresh_sent hfresh, neg_zero]
  · intro u v hu ho
    rw [hfresh] at ho
    exact hclosed u v hu ho
  · intro u v _
    exact fresh_sent hfresh u v

theorem alike_of_untouched (hg : Untouched r g) (hh : Untouched r h)
    (hclosed : ∀ u v, u ∈ inside → Open g.capacity u v → v ∈ inside) (hcapacity : SameFrom inside g.capacity h.capacity)
    (hcost : ∀ u v, u ∈ inside → Open g.capacity u v → g.cost u v = h.cost u v) : Alike r inside g h := by
  obtain ⟨hresidual, htotal⟩ := untouched_fresh hg
  obtain ⟨hresidual', htotal'⟩ := untouched_fresh hh
  have hclosed' : ∀ u v, u ∈ inside → Open h.capacity u v → v ∈ inside := by
    intro u v hu ho
    refine hclosed u v hu ⟨ho.1, ?_⟩
    rw [hcapacity u v hu ho.1]
    exact ho.2
  refine ⟨confined_of_untouched hg hclosed, confined_of_untouched hh hclosed', hcapacity, ?_, ?_, ?_⟩
  · rwa [hresidual, hresidual']
  · rwa [hresidual]
  · rw [htotal, htotal']

/-- Solves from a source are the same on networks with the same capacities on the pairs that leave the
vertices which it can reach, and the same costs on those of the pairs that have a capacity. -/
theorem solveBetween_ignores_unreached (hg : Untouched r g) (hh : Untouched r h)
    (hcapacity : ∀ w u v, Walk g.capacity s w u → u ≠ v → g.capacity u v = h.capacity u v)
    (hcost : ∀ w u v, Walk g.capacity s w u → Open g.capacity u v → g.cost u v = h.cost u v) :
    (g.solveBetween r s t).rounds = (h.solveBetween r s t).rounds ∧
      (g.solveBetween r s t).outcome = (h.solveBetween r s t).outcome := by
  by_cases hst : s = t
  · cases hx : Network.terminals n s t with
    | error e =>
      rw [Network.solveBetween, Network.solveBetween, hx]
      exact ⟨rfl, rfl⟩
    | ok p =>
      obtain ⟨hs, ht, hne⟩ := Network.terminals_eq_ok.mp hx
      exact absurd (Fin.ext (hs.trans ((congrArg Fin.val hst).trans ht.symm))) hne
  let inside := (g.reachableFrom s).toFinset
  have hwalk : ∀ u, u ∈ inside ↔ ∃ w, Walk g.capacity s w u := by
    intro u
    rw [List.mem_toFinset, Network.mem_reachableFrom, (untouched_fresh hg).1]
  have hclosed : ∀ u v, u ∈ inside → Open g.capacity u v → v ∈ inside := by
    intro u v hu ho
    obtain ⟨w, hw⟩ := (hwalk u).mp hu
    exact (hwalk v).mpr ⟨_, hw.snoc ho⟩
  have hgh : Alike r inside g h := by
    refine alike_of_untouched hg hh hclosed ?_ ?_
    · intro u v hu
      obtain ⟨w, hw⟩ := (hwalk u).mp hu
      exact hcapacity w u v hw
    · intro u v hu
      obtain ⟨w, hw⟩ := (hwalk u).mp hu
      exact hcost w u v hw
  have hruns := exhaust_alike ((hwalk s).mpr ⟨[], .nil⟩) hst h hgh
  rw [Network.solveBetween_eq r g hst, Network.solveBetween_eq r h hst]
  exact ⟨hruns.rounds, hruns.result_eq⟩

/-- The diamond, with three vertices that nothing leads to. -/
def lonely : Network 7 :=
  (((((Network.empty 7).setArc 0 1 1 1).setArc 0 2 1 3).setArc 1 2 1 1).setArc 1 3 1 4).setArc 2 3 1 1

theorem lonely_built : Built (.ofBits 8) lonely :=
  (built_empty (by decide)).setArcs [(0, 1, 1, 1), (0, 2, 1, 3), (1, 2, 1, 1), (1, 3, 1, 4), (2, 3, 1, 1)] (by decide)

/-- The same with a cheap loop, a cheap arc of no capacity, and a cycle `4 -> 5 -> 6 -> 4` from which an
arc leads to the others, all at costs of which no two can be added. -/
def haunted : Network 7 :=
  (((((lonely.setArc 1 1 9 (-127)).setArc 0 3 0 (-127)).setArc 4 5 9 (-127)).setArc 5 6 9 (-127)).setArc 6 4 9
    (-127)).setArc 6 1 9 (-127)

theorem haunted_built : Built (.ofBits 8) haunted :=
  lonely_built.setArcs
    [(1, 1, 9, -127), (0, 3, 0, -127), (4, 5, 9, -127), (5, 6, 9, -127), (6, 4, 9, -127), (6, 1, 9, -127)] (by decide)

theorem haunted_solved : (haunted.solveBetween (.ofBits 8) 0 3).outcome =
    .ok ⟨2, 9, [⟨[0, 1, 2, 3], 1, 3⟩, ⟨[0, 2, 1, 3], 1, 6⟩]⟩ := by
  have hreach : ∀ w u, Walk lonely.capacity 0 w u → u ∈ [0, 1, 2, 3] := by
    intro w u hw
    have hfound : lonely.reachableFrom 0 = [0, 1, 2, 3] := by decide +kernel
    rw [← (built_fresh lonely_built).1] at hw
    rw [← hfound]
    exact Network.mem_reachableFrom.mpr ⟨w, hw⟩
  have hcapacity : ∀ u ∈ [0, 1, 2, 3], ∀ v, u ≠ v → lonely.capacity u v = haunted.capacity u v := by decide +kernel
  have hcost : ∀ u ∈ [0, 1, 2, 3], ∀ v, Open lonely.capacity u v → lonely.cost u v = haunted.cost u v := by
    decide +kernel
  obtain ⟨-, hsame⟩ := solveBetween_ignores_unreached (s := 0) (t := 3) (.built lonely_built) (.built haunted_built)
    (fun w u v hw => hcapacity u (hreach w u hw) v) (fun w u v hw => hcost u (hreach w u hw) v)
  have hlonely : (lonely.solveBetween (.ofBits 8) 0 3).outcome =
      .ok ⟨2, 9, [⟨[0, 1, 2, 3], 1, 3⟩, ⟨[0, 2, 1, 3], 1, 6⟩]⟩ := by
    decide +kernel
  exact hsame.symm.trans hlonely

end MinCostFlow
