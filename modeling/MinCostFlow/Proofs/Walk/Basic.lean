/-
  MinCostFlow.Proofs.Walk.Basic — walks, as lists of arcs.

  A walk is the list of its arcs, each of which starts where the one before it ends
  (`Leads`). A walk is simple if it leaves no vertex twice; a simple walk that ends
  where it starts is a cycle, and one that does not is a path.

  Proved: walks are cut and joined at their vertices (`leads_append`); a walk that is
  not simple contains a cycle (`exists_cycle`), and a closed one contains a cycle through
  its start (`exists_cycle_at`); a walk with one end inside of a set and one outside takes an
  arc out of it (`exists_leaving`); a walk comes into each vertex as often as it leaves it,
  but for its ends (`balance`).
-/

import Mathlib.Algebra.BigOperators.Fin
import Mathlib.Data.Fintype.Card
import Mathlib.Data.List.Nodup

namespace MinCostFlow

variable {α β : Type}

def Leads : α → List (α × α) → α → Prop
  | u, [], v => u = v
  | u, a :: w, v => a.1 = u ∧ Leads a.2 w v

/-- No vertex is left twice. -/
def Simple (w : List (α × α)) : Prop := (w.map Prod.fst).Nodup

@[simp] theorem leads_nil {u v : α} : Leads u [] v ↔ u = v := Iff.rfl

@[simp] theorem leads_cons {u v : α} {a : α × α} {w : List (α × α)} :
    Leads u (a :: w) v ↔ a.1 = u ∧ Leads a.2 w v := Iff.rfl

theorem leads_append {u v : α} {w x : List (α × α)} :
    Leads u (w ++ x) v ↔ ∃ m, Leads u w m ∧ Leads m x v := by
  induction w generalizing u with
  | nil => simp
  | cons a w ih => simp [ih, and_assoc]

theorem leads_snoc {u v : α} {a : α × α} {w : List (α × α)} :
    Leads u (w ++ [a]) v ↔ Leads u w a.1 ∧ a.2 = v := by
  rw [leads_append]
  constructor
  · intro h
    obtain ⟨m, hw, rfl, hv⟩ := h
    exact ⟨hw, hv⟩
  · intro h
    exact ⟨a.1, h.1, rfl, h.2⟩

/-- A walk through an arc is a walk to its tail, the arc, and a walk from its head. -/
theorem leads_split {u v : α} {a : α × α} {w : List (α × α)} (h : Leads u w v) (ha : a ∈ w) :
    ∃ x y, w = x ++ a :: y ∧ Leads u x a.1 ∧ Leads a.2 y v := by
  obtain ⟨x, y, rfl⟩ := List.append_of_mem ha
  obtain ⟨m, hx, rfl, hy⟩ := leads_append.mp h
  exact ⟨x, y, rfl, hx, hy⟩

theorem leads_map (f : α → β) {u v : α} {w : List (α × α)} (h : Leads u w v) :
    Leads (f u) (w.map (Prod.map f f)) (f v) := by
  induction w generalizing u with
  | nil => exact congrArg f h
  | cons a w ih =>
    obtain ⟨rfl, h⟩ := h
    exact ⟨rfl, ih h⟩

theorem Simple.of_map {f : α → β} {w : List (α × α)} (h : Simple (w.map (Prod.map f f))) : Simple w := by
  rw [Simple, List.map_map] at h
  exact List.Nodup.of_map f (by rwa [List.map_map])

/-- A walk among names of vertices is one among the vertices. -/
theorem leads_of_map {f : α → β} (hf : Function.Injective f) {u : α} {z : β} {w : List (α × α)}
    (h : Leads (f u) (w.map (Prod.map f f)) z) : ∃ v, f v = z ∧ Leads u w v := by
  induction w generalizing u with
  | nil => exact ⟨u, h, rfl⟩
  | cons a w ih =>
    obtain ⟨ha, h⟩ := h
    obtain ⟨v, hv, hw⟩ := ih h
    exact ⟨v, hv, hf ha, hw⟩

/-- Names of vertices are their numbers. -/
theorem leads_of_names {n : Nat} {u v : Fin n} {w : List (Fin n × Fin n)}
    (h : Leads u.val (w.map (Prod.map Fin.val Fin.val)) v.val) : Leads u w v := by
  obtain ⟨x, hx, hw⟩ := leads_of_map Fin.val_injective h
  rwa [Fin.ext hx] at hw

theorem exists_leaving {p : α → Prop} {u v : α} {w : List (α × α)} (h : Leads u w v) (hu : p u) (hv : ¬p v) :
    ∃ a ∈ w, p a.1 ∧ ¬p a.2 := by
  induction w generalizing u with
  | nil =>
    obtain rfl := h
    exact absurd hu hv
  | cons a w ih =>
    obtain ⟨rfl, h⟩ := h
    by_cases ha : p a.2
    · obtain ⟨b, hb, hcross⟩ := ih h ha
      exact ⟨b, List.mem_cons_of_mem a hb, hcross⟩
    · exact ⟨a, List.mem_cons_self .., hu, ha⟩

theorem Simple.length_le {n : Nat} {w : List (Fin n × Fin n)} (h : Simple w) : w.length ≤ n := by
  simpa using List.Nodup.length_le_card h

/-- The first vertex that is left a second time closes a cycle. -/
theorem exists_cycle {u v : α} {w : List (α × α)} (h : Leads u w v) (hw : ¬Simple w) :
    ∃ m x c y, w = x ++ (c ++ y) ∧ Leads u x m ∧ Leads m c m ∧ Leads m y v ∧ c ≠ [] ∧ Simple c := by
  induction w generalizing u with
  | nil => exact absurd List.nodup_nil hw
  | cons a w ih =>
    obtain ⟨rfl, h⟩ := h
    by_cases hs : Simple w
    · -- the rest is simple, so it is the vertex `a.1` that comes again
      have ha : a.1 ∈ w.map Prod.fst := by
        by_contra hn
        exact hw (List.nodup_cons.mpr ⟨hn, hs⟩)
      obtain ⟨b, hb, hba⟩ := List.mem_map.mp ha
      obtain ⟨x, y, rfl, hx, hy⟩ := leads_split h hb
      refine ⟨a.1, [], a :: x, b :: y, rfl, rfl, ⟨rfl, hba ▸ hx⟩, ⟨hba, hy⟩, by simp, ?_⟩
      simp only [Simple, List.map_append, List.map_cons, List.nodup_append] at hs
      refine List.nodup_cons.mpr ⟨fun hm => ?_, hs.1⟩
      exact hs.2.2 _ hm _ (List.mem_cons_self ..) hba.symm
    · obtain ⟨m, x, c, y, rfl, hx, hc, hy, hne, hsc⟩ := ih h hs
      exact ⟨m, a :: x, c, y, rfl, ⟨rfl, hx⟩, hc, hy, hne, hsc⟩

/-- On a closed walk there is a way on from every vertex that it comes to. -/
theorem exists_next {v : α} {a : α × α} {w : List (α × α)} (h : Leads v w v) (ha : a ∈ w) : ∃ b ∈ w, b.1 = a.2 := by
  obtain ⟨x, y, rfl, hx, hy⟩ := leads_split h ha
  cases y with
  | cons b y => exact ⟨b, by simp, hy.1⟩
  | nil =>
    -- the walk goes on from where it has started
    obtain rfl : a.2 = v := hy
    cases x with
    | nil => exact ⟨a, by simp, hx.symm⟩
    | cons b x => exact ⟨b, by simp, hx.1⟩

/-- A closed walk that is not empty holds a cycle through its start. -/
theorem exists_cycle_at {v : α} {w : List (α × α)} (h : Leads v w v) (hne : w ≠ []) :
    ∃ c, Leads v c v ∧ c ≠ [] ∧ Simple c ∧ ∀ a ∈ c, a ∈ w := by
  induction hl : w.length using Nat.strong_induction_on generalizing w with
  | _ l ih =>
    by_cases hs : Simple w
    · exact ⟨w, h, hne, hs, fun _ ha => ha⟩
    obtain ⟨m, x, c, y, rfl, hx, hc, hy, hcne, hsc⟩ := exists_cycle h hs
    by_cases hxy : x ++ y = []
    · -- nothing is left but the cycle, which is simple
      obtain ⟨rfl, rfl⟩ := List.append_eq_nil_iff.mp hxy
      exact absurd (by simpa using hsc) hs
    · have hlen : (x ++ y).length < l := by
        have := List.length_pos_iff.mpr hcne
        simp only [List.length_append] at hl ⊢
        omega
      obtain ⟨d, hd, hdne, hsd, hsub⟩ := ih _ hlen (leads_append.mpr ⟨m, hx, hy⟩) hxy rfl
      refine ⟨d, hd, hdne, hsd, fun a ha => ?_⟩
      rcases List.mem_append.mp (hsub a ha) with hm | hm
      · exact List.mem_append_left _ hm
      · exact List.mem_append_right x (List.mem_append_right c hm)

/-! ## Balance -/

variable {n : Nat}

/-- How often a walk takes the pair in this direction, less how often in the other. -/
def net (w : List (Fin n × Fin n)) (u v : Fin n) : Int := w.count (u, v) - w.count (v, u)

@[simp] theorem net_nil (u v : Fin n) : net [] u v = 0 := rfl

theorem net_swap (w : List (Fin n × Fin n)) (u v : Fin n) : net w v u = -net w u v := by
  simp only [net]
  omega

theorem net_cons (u v : Fin n) (w : List (Fin n × Fin n)) (x y : Fin n) :
    net ((u, v) :: w) x y =
      net w x y + ((if u = x ∧ v = y then 1 else 0) - (if u = y ∧ v = x then 1 else 0)) := by
  simp only [net, List.count_cons, beq_iff_eq, Prod.mk.injEq]
  push_cast
  omega

/-- A walk leaves its start once more than it comes in, and comes into its end once more
than it leaves; with every other vertex it is even. -/
theorem balance {s t : Fin n} {w : List (Fin n × Fin n)} (h : Leads s w t) (x : Fin n) :
    ∑ y, net w x y = (if s = x then 1 else 0) - (if t = x then 1 else 0) := by
  induction w generalizing s with
  | nil =>
    obtain rfl := h
    simp
  | cons a w ih =>
    obtain ⟨u, v⟩ := a
    obtain ⟨rfl, h⟩ := h
    have hout : ∑ y, (if u = x ∧ v = y then (1 : Int) else 0) = if u = x then 1 else 0 := by
      by_cases hu : u = x <;> simp [hu]
    have hin : ∑ y, (if u = y ∧ v = x then (1 : Int) else 0) = if v = x then 1 else 0 := by
      by_cases hv : v = x <;> simp [hv]
    simp only [net_cons, Finset.sum_add_distrib, Finset.sum_sub_distrib, hout, hin, ih h]
    omega

end MinCostFlow
