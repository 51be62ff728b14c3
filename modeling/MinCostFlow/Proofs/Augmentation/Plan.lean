/-
  MinCostFlow.Proofs.Augmentation.Plan — an augmentation is planned, and then carried out.

  All that can be refused is settled before the first cell is written: the path is read back,
  its hops are pairs of vertices, something is left on each, and three sums can be stored
  (`prepare`). The rest only writes (`augment_eq_prepare`). What has been planned along the
  path of any predecessors can be carried out: the path visits no vertex twice, so no arc is
  written twice, and the reverse of an arc only gives back what it has just gained
  (`sends_of_plan`).

  Proved: a plan reads nothing but the arcs of the path, their reverses and the total flow
  (`plan_congr`), and what a plan that is accepted says (`plan_eq_ok`); in a network that
  callers can come to, nothing that is planned fails afterwards (`augment_of_prepare`).
-/

import MinCostFlow.Proofs.Augmentation.Attempt

namespace MinCostFlow

variable {n : Nat} {r : IntRange} {g g' h : Network n} {s t : Fin n} {arcs : List (Fin n × Fin n)} {path : List Nat}
  {predecessors : Array (Option Nat)} {source sink : Nat} {a : Augmentation} {x : Augmentation × Int}

namespace Network

/-- What is settled before flow is sent: the augmentation, and the total flow that it leads to. -/
def plan (r : IntRange) (g : Network n) (path : List Nat) (arcs : List (Fin n × Fin n)) (sink : Nat) :
    Except (Failure SolveError) (Augmentation × Int) := do
  let bottleneck ← expect (.error (.brokenTree sink sink 0)) (g.bottleneck? arcs)
  demand (.fault .saturatedPath) (0 < bottleneck)
  let cost ← expect (.error (.overflow .pathCost)) (g.unitCost? r arcs)
  let totalFlow ← r.require (.error (.overflow .totalFlow)) (g.totalFlow + bottleneck)
  demand (.error (.overflow .reverseResidual)) (arcs.all fun (u, v) => g.residual v u + bottleneck ∈ r)
  return (⟨path, bottleneck, cost⟩, totalFlow)

/-- Everything that comes before the first write: the arcs of the path, and the plan for them. -/
def prepare (r : IntRange) (g : Network n) (predecessors : Array (Option Nat)) (source sink : Nat) :
    Except (Failure SolveError) (List (Fin n × Fin n) × Augmentation × Int) := do
  let path ← traceBack predecessors source sink
  let arcs ← orFault ((hops path).mapM fun (u, v) => Matrix.locate n u v)
  let x ← g.plan r path arcs sink
  return (arcs, x)

theorem augment_eq_prepare (r : IntRange) (g : Network n) (predecessors : Array (Option Nat)) (source sink : Nat) :
    g.augment r predecessors source sink = do
      let (arcs, a, totalFlow) ← g.prepare r predecessors source sink
      let g' ← orFault (g.sendAlong r arcs a totalFlow)
      return (a, g') := by
  unfold augment prepare plan
  simp only [bind_assoc, pure_bind]

theorem prepare_eq_plan (hpath : traceBack predecessors source sink = .ok path)
    (harcs : hops path = arcs.map (Prod.map Fin.val Fin.val)) :
    g.prepare r predecessors source sink = (g.plan r path arcs sink).map fun x => (arcs, x) := by
  have hloc : (hops path).mapM (fun x => Matrix.locate n x.1 x.2) = .ok arcs := by
    rw [harcs]
    exact locate_map arcs
  rw [prepare, bind_of_ok hpath, bind_of_ok (orFault_eq_ok.mpr hloc)]
  cases g.plan r path arcs sink with
  | ok x => rfl
  | error e => rfl

/-- Where the path is known, an augmentation is its plan, carried out. -/
theorem augment_eq_plan (hpath : traceBack predecessors source sink = .ok path)
    (harcs : hops path = arcs.map (Prod.map Fin.val Fin.val)) :
    g.augment r predecessors source sink = do
      let x ← g.plan r path arcs sink
      let g' ← orFault (g.sendAlong r arcs x.1 x.2)
      return (x.1, g') := by
  rw [augment_eq_prepare, prepare_eq_plan hpath harcs]
  cases g.plan r path arcs sink with
  | ok x => rfl
  | error e => rfl

/-- A plan reads nothing but the arcs of the path, their reverses, and the total flow. -/
theorem plan_congr (htotal : g.totalFlow = h.totalFlow)
    (hforth : ∀ a ∈ arcs, g.residual a.1 a.2 = h.residual a.1 a.2)
    (hback : ∀ a ∈ arcs, g.residual a.2 a.1 = h.residual a.2 a.1) (hcost : ∀ a ∈ arcs, g.cost a.1 a.2 = h.cost a.1 a.2) :
    g.plan r path arcs sink = h.plan r path arcs sink := by
  have hbottleneck : g.bottleneck? arcs = h.bottleneck? arcs := by
    unfold bottleneck?
    rw [List.map_congr_left hforth]
  have hunit : g.unitCost? r arcs = h.unitCost? r arcs := by
    unfold unitCost?
    refine foldlM_congr (fun a ha total => ?_) 0
    show r.fit? (total + g.cost a.1 a.2) = r.fit? (total + h.cost a.1 a.2)
    rw [hcost a ha]
  have hall : ∀ b, arcs.all (fun (u, v) => g.residual v u + b ∈ r) = arcs.all fun (u, v) => h.residual v u + b ∈ r := by
    intro b
    rw [Bool.eq_iff_iff, List.all_eq_true, List.all_eq_true]
    refine forall₂_congr fun a ha => ?_
    show decide (g.residual a.2 a.1 + b ∈ r) = true ↔ decide (h.residual a.2 a.1 + b ∈ r) = true
    rw [hback a ha]
  unfold plan
  simp only [hbottleneck, hunit, htotal, hall]

theorem plan_eq_ok (hx : g.plan r path arcs sink = .ok x) :
    x.1.path = path ∧ g.bottleneck? arcs = some x.1.bottleneck ∧ 0 < x.1.bottleneck ∧
      g.unitCost? r arcs = some x.1.cost ∧ x.2 = g.totalFlow + x.1.bottleneck ∧
      ∀ a ∈ arcs, g.residual a.2 a.1 + x.1.bottleneck ∈ r := by
  simp only [plan, bind_eq_ok, expect_eq_ok, demand_eq_ok, IntRange.require_eq_ok, pure_eq_ok] at hx
  obtain ⟨b, hb, _, hpos, c, hc, _, ⟨-, rfl⟩, _, hback, rfl⟩ := hx
  exact ⟨rfl, hb, hpos, hc, rfl, by simpa using hback⟩

theorem prepare_eq_ok (h : g.prepare r predecessors source sink = .ok (arcs, x)) :
    Traced predecessors source sink x.1.path ∧ hops x.1.path = arcs.map (Prod.map Fin.val Fin.val) ∧
      g.plan r x.1.path arcs sink = .ok x := by
  simp only [prepare, bind_eq_ok, orFault_eq_ok, pure_eq_ok, Prod.mk.injEq] at h
  obtain ⟨path, hpath, _, harcs, y, hy, rfl, rfl⟩ := h
  rw [(plan_eq_ok hy).1]
  exact ⟨traceBack_eq_ok hpath, mapM_locate harcs, hy⟩

end Network

/-! ## Carrying out a plan -/

/-- What is planned along the path of some predecessors does not fail on the way. -/
theorem sends_of_plan (hg : Sound r g) (hpath : Traced predecessors source sink path)
    (harcs : hops path = arcs.map (Prod.map Fin.val Fin.val)) (hx : g.plan r path arcs sink = .ok x) :
    ∃ m, arcs.foldlM (fun m (u, v) => Network.send r x.1.bottleneck m u v) g.residual = .ok m := by
  obtain ⟨-, hb, hpos, -, -, hback⟩ := Network.plan_eq_ok hx
  have hsimple := hpath.simple
  rw [harcs] at hsimple
  refine sends_ok hg.storable hpos.le hsimple.of_map (fun a ha => ⟨?_, ?_⟩) hback
  · intro hloop
    have hhop : (a.1.val, a.2.val) ∈ hops path := harcs ▸ List.mem_map_of_mem ha
    exact (hpath.of_mem_hops hhop).2 (congrArg Fin.val hloop)
  · exact (List.min?_eq_some_iff.mp hb).2 _ (List.mem_map_of_mem ha)

theorem augment_of_prepare {totalFlow : Int} (hg : Sound r g)
    (h : g.prepare r predecessors source sink = .ok (arcs, a, totalFlow)) :
    ∃ m, arcs.foldlM (fun m (u, v) => Network.send r a.bottleneck m u v) g.residual = .ok m ∧
      g.augment r predecessors source sink = .ok (a, { g with residual := m, totalFlow := totalFlow }) := by
  obtain ⟨htraced, harcs, hplan⟩ := Network.prepare_eq_ok h
  obtain ⟨m, hm⟩ := sends_of_plan hg htraced harcs hplan
  have hsent : g.sendAlong r arcs a totalFlow = .ok { g with residual := m, totalFlow := totalFlow } :=
    bind_eq_ok.mpr ⟨m, hm, rfl⟩
  refine ⟨m, hm, ?_⟩
  rw [Network.augment_eq_prepare, bind_of_ok h]
  exact bind_of_ok (orFault_eq_ok.mpr hsent)

theorem augment_of_plan (hg : Sound r g) (hpath : traceBack predecessors source sink = .ok path)
    (harcs : hops path = arcs.map (Prod.map Fin.val Fin.val)) (hx : g.plan r path arcs sink = .ok x) :
    ∃ g', g.augment r predecessors source sink = .ok (x.1, g') := by
  have hprepared : g.prepare r predecessors source sink = .ok (arcs, x.1, x.2) := by
    rw [Network.prepare_eq_plan hpath harcs, hx]
    rfl
  obtain ⟨m, -, hsent⟩ := augment_of_prepare hg hprepared
  exact ⟨_, hsent⟩

/-- Vertices that have the same names are the same. -/
theorem eq_of_names {other : List (Fin n × Fin n)}
    (h : other.map (Prod.map Fin.val Fin.val) = arcs.map (Prod.map Fin.val Fin.val)) : other = arcs :=
  List.map_injective_iff.mpr (Fin.val_injective.prodMap Fin.val_injective) h

/-- What is sent is sent along the path that the predecessors describe. -/
theorem augment_pushed (hpath : traceBack predecessors s t = .ok path)
    (harcs : hops path = arcs.map (Prod.map Fin.val Fin.val)) (ha : g.augment r predecessors s t = .ok (a, g')) :
    Pushed r g s t arcs a g' := by
  obtain ⟨htraced, s', t', arcs', hs, ht, hp⟩ := augment_eq_ok ha
  obtain rfl := Fin.ext hs
  obtain rfl := Fin.ext ht
  have hsame : arcs' = arcs := eq_of_names (by rw [← hp.hops_path, ← harcs, htraced.unique (traceBack_eq_ok hpath)])
  rwa [hsame] at hp

end MinCostFlow
