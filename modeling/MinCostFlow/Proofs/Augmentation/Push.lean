/-
  MinCostFlow.Proofs.Augmentation.Push — what an augmentation does to a network.

  `Pushed` says all of it: the bottleneck was sent along a simple walk from the source to
  the sink, so each residual capacity has lost the bottleneck times the net count of its
  pair on that walk, the total flow has grown by the bottleneck, and nothing else has
  changed.

  Proved: every augmentation that succeeds is one (`augment_eq_ok`), and what follows for
  residual capacities: none becomes negative or leaves its range (`Pushed.nonneg`,
  `Pushed.le_top`), and a pair that opens is the reverse of an arc on the path
  (`Pushed.opened`).
-/

import Mathlib.Tactic.Ring
import MinCostFlow.Proofs.Augmentation.Trace
import MinCostFlow.Proofs.PartialSums
import MinCostFlow.Proofs.Walk.Cost

namespace MinCostFlow

variable {n : Nat} {r : IntRange} {g g' : Network n} {s t u v : Fin n}
  {arcs : List (Fin n × Fin n)} {a : Augmentation} {b c : Int}

structure Pushed (r : IntRange) (g : Network n) (s t : Fin n) (arcs : List (Fin n × Fin n))
    (a : Augmentation) (g' : Network n) : Prop where
  hops_path : hops a.path = arcs.map (Prod.map Fin.val Fin.val)
  leads : Leads s arcs t
  simple : Simple arcs
  pos : 0 < a.bottleneck
  le_residual : ∀ x ∈ arcs, x.1 ≠ x.2 ∧ a.bottleneck ≤ g.residual x.1 x.2
  attained : ∃ x ∈ arcs, g.residual x.1 x.2 = a.bottleneck
  cost : a.cost = costOf g.cost arcs
  back_mem : ∀ x ∈ arcs, g.residual x.2 x.1 + a.bottleneck ∈ r
  total_mem : g.totalFlow + a.bottleneck ∈ r
  residual : ∀ u v, g'.residual u v = g.residual u v - a.bottleneck * net arcs u v
  frame : g' = { g with residual := g'.residual, totalFlow := g.totalFlow + a.bottleneck }

/-! ## The steps of an augmentation -/

theorem mapM_locate {pairs : List (Nat × Nat)}
    (h : pairs.mapM (fun (i, j) => Matrix.locate n i j) = .ok arcs) :
    pairs = arcs.map (Prod.map Fin.val Fin.val) := by
  have := map_eq_of_mapM (p := id) (q := Prod.map Fin.val Fin.val) ?_ h
  · rwa [List.map_id] at this
  · intro p a ha
    obtain ⟨hu, hv⟩ := Matrix.locate_eq_ok.mp ha
    exact Prod.ext hu.symm hv.symm

theorem unitCost_eq (h : g.unitCost? r arcs = some c) : c = costOf g.cost arcs := by
  have hstep := fit?_step_iff (r := r) fun a : Fin n × Fin n => g.cost a.1 a.2
  obtain ⟨-, -, hc⟩ := (foldlM_eq_some_iff hstep r.zero_mem).mp h
  rwa [zero_add] at hc

theorem send_eq_ok {m m' : Matrix n} (h : Network.send r b m u v = .ok m') (x y : Fin n) :
    m' x y = m x y - b * net [(u, v)] x y := by
  simp only [Network.send, bind_eq_ok, IntRange.require_eq_ok, pure_eq_ok, Matrix.get_set] at h
  obtain ⟨_, ⟨-, rfl⟩, _, ⟨-, rfl⟩, rfl⟩ := h
  simp only [Matrix.get_set, net_cons]
  by_cases hux : u = x <;> by_cases hvy : v = y <;> by_cases huy : u = y <;> by_cases hvx : v = x <;>
    simp_all [net]

theorem sendAlong_eq_ok {m m' : Matrix n}
    (h : arcs.foldlM (fun m (u, v) => Network.send r b m u v) m = .ok m') (x y : Fin n) :
    m' x y = m x y - b * net arcs x y := by
  induction arcs generalizing m with
  | nil =>
    obtain rfl := Except.ok.inj h
    simp
  | cons a arcs ih =>
    obtain ⟨u, v⟩ := a
    simp only [List.foldlM_cons, bind_eq_ok] at h
    obtain ⟨m1, h1, h⟩ := h
    rw [ih h, send_eq_ok h1, net_cons u v arcs, net_cons u v [], net_nil]
    ring

theorem augment_eq_ok {predecessors : Array (Option Nat)} {source sink : Nat}
    (h : g.augment r predecessors source sink = .ok (a, g')) :
    Traced predecessors source sink a.path ∧
      ∃ (s t : Fin n) (arcs : List (Fin n × Fin n)), s.val = source ∧ t.val = sink ∧ Pushed r g s t arcs a g' := by
  simp only [Network.augment, Network.sendAlong, bind_eq_ok, orFault_eq_ok, expect_eq_ok, demand_eq_ok,
    pure_eq_ok, IntRange.require_eq_ok, Prod.mk.injEq] at h
  obtain ⟨path, hpath, arcs, harcs, b, hb, _, hpos, c, hc, _, ⟨ht, rfl⟩, _, hback, _, ⟨m', hm', rfl⟩, rfl, rfl⟩ := h
  have htr := traceBack_eq_ok hpath
  have hhops := mapM_locate harcs
  obtain ⟨hmem, hle⟩ := List.min?_eq_some_iff.mp hb
  obtain ⟨x, hx, hxb⟩ := List.mem_map.mp hmem
  have hleads := htr.leads
  rw [hhops] at hleads
  have hsimple := htr.simple
  rw [hhops] at hsimple
  -- the ends are vertices of the network because the path has an arc
  obtain ⟨y, rest, rfl⟩ : ∃ y rest, arcs = y :: rest := by
    cases arcs with
    | nil => cases hx
    | cons y rest => exact ⟨y, rest, rfl⟩
  have hs := hleads.1
  obtain ⟨t, ht', hl⟩ := leads_of_map (u := y.1) Fin.val_injective (hs ▸ hleads)
  refine ⟨htr, y.1, t, y :: rest, hs, ht', hhops, hl, hsimple.of_map, hpos, fun z hz => ?_, ⟨x, hx, hxb⟩,
    unitCost_eq hc, ?_, ht, sendAlong_eq_ok hm', rfl⟩
  · refine ⟨fun he => ?_, hle _ (List.mem_map_of_mem hz)⟩
    have := (htr.of_mem_hops (a := (z.1.val, z.2.val)) (hhops ▸ List.mem_map_of_mem hz)).2
    exact this (congrArg Fin.val he)
  · simpa using hback

/-! ## What a push does to residual capacities -/

theorem Simple.count_le_one (h : Simple arcs) (x : Fin n × Fin n) : arcs.count x ≤ 1 :=
  List.nodup_iff_count_le_one.mp (List.Nodup.of_map Prod.fst h) x

theorem Simple.net_le (h : Simple arcs) : net arcs u v ≤ if (u, v) ∈ arcs then 1 else 0 := by
  have := h.count_le_one (u, v)
  simp only [net]
  split
  · omega
  · rw [List.count_eq_zero_of_not_mem ‹_›]
    omega

namespace Pushed

variable (h : Pushed r g s t arcs a g')

include h

theorem capacity_eq : g'.capacity = g.capacity := by rw [h.frame]

theorem cost_eq : g'.cost = g.cost := by rw [h.frame]

theorem totalFlow_eq : g'.totalFlow = g.totalFlow + a.bottleneck := by rw [h.frame]

theorem residual_le (u v : Fin n) :
    g'.residual u v ≤ g.residual u v + if (v, u) ∈ arcs then a.bottleneck else 0 := by
  have hnet := h.simple.net_le (u := v) (v := u)
  have hpos := h.pos
  rw [h.residual, net_swap arcs v u]
  by_cases hm : (v, u) ∈ arcs
  · rw [if_pos hm] at hnet ⊢
    nlinarith
  · rw [if_neg hm] at hnet ⊢
    nlinarith

theorem nonneg (hg : ∀ u v, 0 ≤ g.residual u v) (u v : Fin n) : 0 ≤ g'.residual u v := by
  have hnet := h.simple.net_le (u := u) (v := v)
  have hpos := h.pos
  have huv := hg u v
  rw [h.residual]
  split at hnet
  · have := (h.le_residual (u, v) ‹_›).2
    nlinarith
  · nlinarith

theorem le_top (hg : ∀ u v, g.residual u v ≤ r.top) (u v : Fin n) : g'.residual u v ≤ r.top := by
  have hle := h.residual_le u v
  have huv := hg u v
  split at hle
  · have := (h.back_mem (v, u) ‹_›).2
    simp only at this
    omega
  · omega

/-- A pair that was closed opens only as the reverse of an arc on the path. -/
theorem opened (ho : Open g'.residual u v) : Open g.residual u v ∨ (v, u) ∈ arcs := by
  by_cases hm : (v, u) ∈ arcs
  · exact Or.inr hm
  · have := h.residual_le u v
    rw [if_neg hm] at this
    exact Or.inl ⟨ho.1, by have := ho.2; omega⟩

theorem walk : Walk g.residual s arcs t :=
  ⟨h.leads, fun x hx => ⟨(h.le_residual x hx).1, lt_of_lt_of_le h.pos (h.le_residual x hx).2⟩⟩

end Pushed

end MinCostFlow
