/-
  MinCostFlow.Proofs.Search.Parents — a cycle among the parents of a search has a negative
  cost.

  Going down from a parent to its child, the label climbs by what the arc costs at least;
  more, if the parent has been improved after it gave the child its label. So around a
  cycle of parents the labels climb by its cost at least, which cannot be positive. When an
  improvement at `v` closes a cycle, the child of `v` on it was labelled while `v` was
  dearer, and the cost is negative (`relax_cyclesNegative`). Improvements elsewhere leave
  the parents on a cycle as they are.

  Proved: whatever the costs, all cycles of parents that a search ends with are of negative
  cost (`search_cyclesNegative`). A way down that has as many arcs as there are vertices
  starts on such a cycle (`onCycle_of_length`), because every vertex has one parent: above
  a vertex on a cycle there is nothing but the cycle (`OnCycle.above`).
-/

import MinCostFlow.Proofs.Search.Passes

namespace MinCostFlow

variable {n : Nat} {r : IntRange} {g : Network n} {labels : Labels n} {s u v x : Fin n}
  {w : List (Fin n × Fin n)} {l : Label n}

namespace Labels

variable {p q : Pass n}

def CyclesNegative (labels : Labels n) (k : Matrix n) : Prop :=
  ∀ v w, Leads v w v → w ≠ [] → labels.Descends w → costOf k w < 0

theorem Grounded.climbs (h : Grounded g s labels) (hd : labels.Descends w) :
    ∀ a ∈ w, labels.costAt a.1 + g.cost a.1 a.2 ≤ labels.costAt a.2 := by
  intro a ha
  obtain ⟨l, hl, hp⟩ := hd a ha
  obtain ⟨-, m, hm, hle⟩ := h.parent a.2 l a.1 hl hp
  rw [costAt_eq hl, costAt_eq hm]
  omega

theorem start_cyclesNegative (s : Fin n) (k : Matrix n) : (start s).CyclesNegative k := by
  intro v w _ hne hd
  obtain ⟨a, w, rfl⟩ := List.exists_cons_of_ne_nil hne
  obtain ⟨l, hl, hp⟩ := hd a (List.mem_cons_self ..)
  rw [label_start] at hl
  split at hl
  · obtain rfl := Option.some.inj hl
    cases hp
  · cases hl

theorem costAt_take (p : Pass n) (u v x : Fin n) (c : Int) :
    (p.take u v c).labels.costAt x = if v = x then c else p.labels.costAt x := by
  rw [costAt, Pass.take, label_put]
  split
  · rfl
  · rfl

/-- Away from `v` the parents are those from before. -/
theorem Descends.of_take {c : Int} (hd : (p.take u v c).labels.Descends w) {a : Fin n × Fin n} (ha : a ∈ w)
    (hav : a.2 ≠ v) : ∃ m, p.labels.label a.2 = some m ∧ m.parent = some a.1 := by
  obtain ⟨m, hm, hpar⟩ := hd a ha
  rw [Pass.take, label_put, if_neg hav.symm] at hm
  exact ⟨m, hm, hpar⟩

theorem relax_cyclesNegative (ho : Open g.residual u v) (hp : Grounded g s p.labels)
    (hc : p.labels.CyclesNegative g.cost) (h : relax r g p u v = .ok q) : q.labels.CyclesNegative g.cost := by
  have hq := relax_grounded ho hp h
  rcases relax_cases h with ⟨-, rfl⟩ | ⟨l, hl, -, ⟨-, rfl⟩ | ⟨hn, rfl⟩⟩
  · exact hc
  · exact hc
  intro x w hw hne hd
  by_cases hv : ∃ a ∈ w, a.1 = v
  · -- `a.2` was labelled through `v` before `v` was improved
    obtain ⟨a, ha, rfl⟩ := hv
    have hloop : a.2 ≠ a.1 := by
      obtain ⟨m, hm, hpar⟩ := hd a ha
      exact (hq.parent a.2 m a.1 hm hpar).1.1.symm
    obtain ⟨m, hm, hpar⟩ := hd.of_take ha hloop
    obtain ⟨-, before, hbefore, hle⟩ := hp.parent a.2 m a.1 hm hpar
    have hcheaper := lt_of_not_within hn hbefore
    have hmore : (p.take u a.1 (l.cost + g.cost u a.1)).labels.costAt a.1 + g.cost a.1 a.2 <
        (p.take u a.1 (l.cost + g.cost u a.1)).labels.costAt a.2 := by
      rw [costAt_take, costAt_take, if_pos rfl, if_neg hloop.symm, costAt_eq hm]
      omega
    have := (le_potential hw (hq.climbs hd)).2 ⟨a, ha, hmore⟩
    omega
  · -- the cycle does not meet `v`
    refine hc x w hw hne fun a ha => hd.of_take ha fun hav => ?_
    obtain ⟨b, hb, hba⟩ := exists_next hw ha
    exact hv ⟨b, hb, hba.trans hav⟩

/-- What is true at any point of a search, a relaxation keeps. -/
theorem relax_keeps_both (ho : Open g.residual u v) (hp : Grounded g s p.labels ∧ p.labels.CyclesNegative g.cost)
    (h : relax r g p u v = .ok q) : Grounded g s q.labels ∧ q.labels.CyclesNegative g.cost :=
  ⟨relax_grounded ho hp.1 h, relax_cyclesNegative ho hp.1 hp.2 h⟩

/-! ## The vertices on cycles -/

/-- Going down from `v`, from parents to children, one comes back to it. -/
def OnCycle (labels : Labels n) (v : Fin n) : Prop := ∃ w, w ≠ [] ∧ Leads v w v ∧ labels.Descends w

theorem OnCycle.parent (h : labels.OnCycle v) (hl : labels.label v = some l) (hp : l.parent = some u) :
    labels.OnCycle u := by
  obtain ⟨w, hne, hw, hd⟩ := h
  obtain ⟨y, a, rfl⟩ := (List.eq_nil_or_concat' w).resolve_left hne
  obtain ⟨hy, hav⟩ := leads_snoc.mp hw
  obtain ⟨m, hm, hpar⟩ := hd a (List.mem_append_right y (List.mem_singleton_self a))
  obtain rfl : l = m := by
    rw [hav, hl] at hm
    exact Option.some.inj hm
  obtain rfl : u = a.1 := Option.some.inj (hp.symm.trans hpar)
  refine ⟨a :: y, by simp, ⟨rfl, hav ▸ hy⟩, fun b hb => hd b ?_⟩
  rcases List.mem_cons.mp hb with rfl | hb
  · exact List.mem_append_right y (List.mem_singleton_self b)
  · exact List.mem_append_left [a] hb

theorem OnCycle.above (h : labels.OnCycle v) (hw : Leads u w v) (hd : labels.Descends w) : labels.OnCycle u := by
  induction w generalizing u with
  | nil =>
    obtain rfl := hw
    exact h
  | cons a w ih =>
    obtain ⟨rfl, hw⟩ := hw
    obtain ⟨l, hl, hp⟩ := hd a (List.mem_cons_self ..)
    exact (ih hw fun b hb => hd b (List.mem_cons_of_mem a hb)).parent hl hp

theorem onCycle_of_length (hw : Leads u w v) (hd : labels.Descends w) (hlen : n ≤ w.length) : labels.OnCycle u := by
  have hsub : ∀ {x y}, w = x ++ y → labels.Descends x ∧ labels.Descends y := by
    rintro x y rfl
    exact ⟨fun a ha => hd a (List.mem_append_left y ha), fun a ha => hd a (List.mem_append_right x ha)⟩
  by_cases hs : Simple w
  · -- the walk has left every vertex, so also the one where it ends
    have hmem : v ∈ w.map Prod.fst := by
      by_contra hn
      have := (List.nodup_cons.mpr ⟨hn, hs⟩).length_le_card
      simp at this
      omega
    obtain ⟨a, ha, rfl⟩ := List.mem_map.mp hmem
    obtain ⟨x, y, he, hx, hy⟩ := leads_split hw ha
    have hcycle : labels.OnCycle a.1 := ⟨a :: y, by simp, ⟨rfl, hy⟩, (hsub he).2⟩
    exact hcycle.above hx (hsub he).1
  · obtain ⟨m, x, c, y, he, hx, hc, -, hne, -⟩ := exists_cycle hw hs
    have hcy := (hsub he).2
    have hcycle : labels.OnCycle m := ⟨c, hne, hc, fun a ha => hcy a (List.mem_append_left y ha)⟩
    exact hcycle.above hx (hsub he).1

/-- What the labels say of a cycle of parents is true of the network. -/
theorem OnCycle.exists_negative (h : labels.OnCycle v) (hg : Grounded g s labels) (hc : labels.CyclesNegative g.cost) :
    ∃ c, Walk g.residual v c v ∧ Simple c ∧ costOf g.cost c < 0 := by
  obtain ⟨w, hne, hw, hd⟩ := h
  obtain ⟨c, hlead, hcne, hs, hsub⟩ := exists_cycle_at hw hne
  have hdc : labels.Descends c := fun a ha => hd a (hsub a ha)
  exact ⟨c, ⟨hlead, hg.isOpen hdc⟩, hs, hc v c hlead hcne hdc⟩

end Labels

theorem Network.search_cyclesNegative (hres : ∀ u v, 0 ≤ g.residual u v) (h : (g.search r s).labels = .ok labels) :
    labels.CyclesNegative g.cost := by
  have hboth := correct_keeps (P := fun x => Labels.Grounded g s x ∧ x.CyclesNegative g.cost) ?_ h
    ⟨Labels.start_grounded g s, Labels.start_cyclesNegative s g.cost⟩
  · exact hboth.2
  · intro a ha p q hp hq
    exact Labels.relax_keeps_both ((mem_residualArcs hres).mp ha) hp hq

end MinCostFlow
