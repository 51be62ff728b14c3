/-
  MinCostFlow.Network.Lemmas — what adding an arc does to each matrix.

  Proved: a new arc sets one capacity and the residual capacity of the same pair
  (`capacity_setArc`, `residual_setArc`), and the costs of both directions, where a
  loop keeps the opposite cost (`cost_setArc`); when adding an arc or choosing the
  terminals succeeds, and with what (`addArc_eq_ok`, `setTerminals_eq_ok`).
-/

import MinCostFlow.Matrix.Lemmas
import MinCostFlow.Network.Basic

namespace MinCostFlow.Network

variable {n : Nat}

theorem vertex_eq_ok {v : Nat} {u : Fin n} : vertex n v = .ok u ↔ u.val = v := by
  unfold vertex
  split
  · simp only [Except.ok.injEq, Fin.ext_iff]
    exact eq_comm
  · simp only [reduceCtorEq, false_iff]
    exact fun h => absurd (h ▸ u.isLt) ‹_›

theorem vertex_eq_error {v : Nat} {e : ArcError} :
    vertex n v = .error e ↔ n ≤ v ∧ .outOfRange v n = e := by
  unfold vertex
  split
  · simp only [reduceCtorEq, false_iff]
    omega
  · simp only [Except.error.injEq]
    exact ⟨fun h => ⟨by omega, h⟩, fun h => h.2⟩

theorem capacity_setArc (g : Network n) (u v i j : Fin n) (c k : Int) :
    (g.setArc u v c k).capacity i j = if u = i ∧ v = j then c else g.capacity i j :=
  Matrix.get_set ..

theorem residual_setArc (g : Network n) (u v i j : Fin n) (c k : Int) :
    (g.setArc u v c k).residual i j = if u = i ∧ v = j then c else g.residual i j :=
  Matrix.get_set ..

theorem cost_setArc (g : Network n) (u v i j : Fin n) (c k : Int) :
    (g.setArc u v c k).cost i j =
      if v = i ∧ u = j then -k else if u = i ∧ v = j then k else g.cost i j := by
  simp only [setArc, Matrix.get_set]

theorem addArc_eq_ok {r : IntRange} {g h : Network n} {tail head : Nat} {c k : Int} :
    g.addArc r tail head c k = .ok h ↔
      ∃ u v : Fin n, u.val = tail ∧ v.val = head ∧ 0 ≤ c ∧ -k ∈ r ∧ g.setArc u v c k = h := by
  simp only [addArc, bind_eq_ok, orError_eq_ok, vertex_eq_ok, demand_eq_ok, pure_eq_ok,
    IntRange.require_eq_ok]
  constructor
  · intro h
    obtain ⟨u, hu, v, hv, _, hc, _, ⟨hk, _⟩, rfl⟩ := h
    exact ⟨u, v, hu, hv, hc, hk, rfl⟩
  · intro h
    obtain ⟨u, v, hu, hv, hc, hk, rfl⟩ := h
    exact ⟨u, hu, v, hv, (), hc, -k, ⟨hk, rfl⟩, rfl⟩

theorem setTerminals_eq_ok {g h : Network n} {source sink : Nat} :
    g.setTerminals source sink = .ok h ↔
      ∃ s t : Fin n, s.val = source ∧ t.val = sink ∧ { g with source := source, sink := sink } = h := by
  simp only [setTerminals, bind_eq_ok, vertex_eq_ok, pure_eq_ok]
  constructor
  · intro h
    obtain ⟨s, rfl, t, rfl, rfl⟩ := h
    exact ⟨s, t, rfl, rfl, rfl⟩
  · intro h
    obtain ⟨s, t, rfl, rfl, rfl⟩ := h
    exact ⟨s, rfl, t, rfl, rfl⟩

end MinCostFlow.Network
