/-
  MinCostFlow.Proofs.Walk.Cost — what walks cost, and cycles of negative cost.

  Walks go along the pairs of different vertices on which a matrix has something left
  (`Open`): the residual capacities of a network, or its capacities. What a walk costs is
  read off a second matrix.

  Proved: where no cycle of negative cost can be reached, every walk costs at least as
  much as some simple walk between its ends (`exists_simple_walk`), so no closed walk has
  a negative cost either (`closed_nonneg`). Potentials bound the costs of walks
  (`potential_le`), and there are potentials for all vertices exactly when there is no
  cycle of negative cost (`noNegativeCycle_iff_potential`). For the cycles that can be reached
  from a vertex, potentials for a set that walks do not leave are enough
  (`noNegativeCycleFrom_of_potential`).
-/

import Mathlib.Algebra.Order.BigOperators.Group.List
import Mathlib.Data.Fintype.Order
import Mathlib.Data.Int.LeastGreatest
import Mathlib.Tactic.Linarith
import MinCostFlow.Matrix.Lemmas
import MinCostFlow.Proofs.Walk.Basic

namespace MinCostFlow

variable {n : Nat} {m k : Matrix n} {u v x : Fin n} {w y : List (Fin n × Fin n)}

def Open (m : Matrix n) (u v : Fin n) : Prop := u ≠ v ∧ 0 < m u v

instance (m : Matrix n) (u v : Fin n) : Decidable (Open m u v) :=
  inferInstanceAs (Decidable (_ ∧ _))

structure Walk (m : Matrix n) (u : Fin n) (w : List (Fin n × Fin n)) (v : Fin n) : Prop where
  leads : Leads u w v
  isOpen : ∀ a ∈ w, Open m a.1 a.2

def costOf (k : Matrix n) (w : List (Fin n × Fin n)) : Int := (w.map fun a => k a.1 a.2).sum

/-- No cycle along open pairs has a negative cost. -/
def NoNegativeCycle (m k : Matrix n) : Prop := ∀ v w, Walk m v w v → Simple w → 0 ≤ costOf k w

/-- None that walks from `s` come to. -/
def NoNegativeCycleFrom (m k : Matrix n) (s : Fin n) : Prop :=
  ∀ v y w, Walk m s y v → Walk m v w v → Simple w → 0 ≤ costOf k w

theorem NoNegativeCycle.from (h : NoNegativeCycle m k) (s : Fin n) : NoNegativeCycleFrom m k s :=
  fun v _ w _ hw hs => h v w hw hs

@[simp] theorem costOf_nil : costOf k [] = 0 := rfl

@[simp] theorem costOf_cons (a : Fin n × Fin n) : costOf k (a :: w) = k a.1 a.2 + costOf k w := rfl

@[simp] theorem costOf_append : costOf k (w ++ y) = costOf k w + costOf k y := by simp [costOf]

theorem abs_costOf_le : |costOf k w| ≤ (w.map fun a => |k a.1 a.2|).sum := by
  induction w with
  | nil => simp
  | cons a w ih =>
    rw [costOf_cons, List.map_cons, List.sum_cons]
    exact (abs_add_le ..).trans (by omega)

/-- Where no arc costs more than `b` either way, a simple walk costs `b` for each vertex at most. -/
theorem Simple.sum_abs_le {b : Int} (hs : Simple w) (hb : 0 ≤ b) (h : ∀ a ∈ w, |k a.1 a.2| ≤ b) :
    (w.map fun a => |k a.1 a.2|).sum ≤ n * b := by
  have hle : (w.map fun a => |k a.1 a.2|).sum ≤ (w.map fun a => |k a.1 a.2|).length • b := by
    refine List.sum_le_card_nsmul _ b fun x hx => ?_
    obtain ⟨a, ha, rfl⟩ := List.mem_map.mp hx
    exact h a ha
  rw [List.length_map, nsmul_eq_mul] at hle
  have hlen : (w.length : Int) ≤ n := by exact_mod_cast hs.length_le
  exact hle.trans (mul_le_mul_of_nonneg_right hlen hb)

theorem Walk.nil : Walk m u [] u := ⟨rfl, by simp⟩

theorem Walk.append (hw : Walk m u w v) (hy : Walk m v y x) : Walk m u (w ++ y) x :=
  ⟨leads_append.mpr ⟨v, hw.leads, hy.leads⟩, fun a ha =>
    (List.mem_append.mp ha).elim (hw.isOpen a) (hy.isOpen a)⟩

theorem Walk.snoc (hw : Walk m u w v) (h : Open m v x) : Walk m u (w ++ [(v, x)]) x :=
  hw.append ⟨⟨rfl, rfl⟩, by simpa using h⟩

/-- A walk that starts in a set which no open pair leaves does not come out of it. -/
theorem Walk.inside {inside : Finset (Fin n)} (hclosed : ∀ u v, u ∈ inside → Open m u v → v ∈ inside) (hu : u ∈ inside)
    (hw : Walk m u w v) : v ∈ inside ∧ ∀ a ∈ w, a.1 ∈ inside ∧ a.2 ∈ inside := by
  induction w generalizing u with
  | nil =>
    obtain rfl := hw.leads
    exact ⟨hu, by simp⟩
  | cons a w ih =>
    obtain ⟨rfl, hleads⟩ := hw.leads
    have ha : a.2 ∈ inside := hclosed a.1 a.2 hu (hw.isOpen a (List.mem_cons_self ..))
    obtain ⟨hv, hrest⟩ := ih ha ⟨hleads, fun b hb => hw.isOpen b (List.mem_cons_of_mem a hb)⟩
    refine ⟨hv, fun b hb => ?_⟩
    rcases List.mem_cons.mp hb with rfl | hb
    · exact ⟨hu, ha⟩
    · exact hrest b hb

/-- Cutting the cycles out of a walk leaves a simple one, which costs no more unless a
cycle had a negative cost. -/
theorem exists_simple_walk (h : Walk m u w v) :
    ∃ y, Walk m u y v ∧ Simple y ∧ ∀ k, NoNegativeCycleFrom m k u → costOf k y ≤ costOf k w := by
  induction hl : w.length using Nat.strong_induction_on generalizing w with
  | _ l ih =>
    by_cases hs : Simple w
    · exact ⟨w, h, hs, fun _ _ => le_rfl⟩
    obtain ⟨x, p, c, q, rfl, hp, hc, hq, hne, hsc⟩ := exists_cycle h.leads hs
    have hopen := h.isOpen
    simp only [List.mem_append] at hopen
    have hpq : Walk m u (p ++ q) v := by
      refine ⟨leads_append.mpr ⟨x, hp, hq⟩, fun a ha => hopen a ?_⟩
      exact (List.mem_append.mp ha).imp_right Or.inr
    have hlen : (p ++ q).length < l := by
      have := List.length_pos_iff.mpr hne
      simp only [List.length_append] at hl ⊢
      omega
    obtain ⟨y, hy, hsy, hle⟩ := ih _ hlen hpq rfl
    refine ⟨y, hy, hsy, fun k hk => (hle k hk).trans ?_⟩
    have := hk x p c ⟨hp, fun a ha => hopen a (Or.inl ha)⟩
      ⟨hc, fun a ha => hopen a (Or.inr (Or.inl ha))⟩ hsc
    simp only [costOf_append]
    omega

theorem closed_nonneg (hk : NoNegativeCycleFrom m k v) (h : Walk m v w v) : 0 ≤ costOf k w := by
  obtain ⟨y, hy, hs, hle⟩ := exists_simple_walk h
  exact (hk v [] y .nil hy hs).trans (hle k hk)

/-! ## Potentials -/

/-- Where no arc of a walk climbs more than it costs, neither does the walk. -/
theorem potential_le {p : Fin n → Int} (h : Leads u w v)
    (hp : ∀ a ∈ w, p a.2 ≤ p a.1 + k a.1 a.2) : p v ≤ p u + costOf k w := by
  induction w generalizing u with
  | nil =>
    obtain rfl := h
    simp
  | cons a w ih =>
    obtain ⟨rfl, h⟩ := h
    have ha := hp a (List.mem_cons_self ..)
    have := ih h fun b hb => hp b (List.mem_cons_of_mem a hb)
    simp only [costOf_cons]
    omega

/-- Where every arc of a walk climbs what it costs or more, so does the walk; it climbs more if one
of its arcs does. -/
theorem le_potential {p : Fin n → Int} (h : Leads u w v) (hp : ∀ a ∈ w, p a.1 + k a.1 a.2 ≤ p a.2) :
    p u + costOf k w ≤ p v ∧ ((∃ a ∈ w, p a.1 + k a.1 a.2 < p a.2) → p u + costOf k w < p v) := by
  induction w generalizing u with
  | nil =>
    obtain rfl := h
    simp
  | cons a w ih =>
    obtain ⟨rfl, h⟩ := h
    have ha := hp a (List.mem_cons_self ..)
    obtain ⟨hle, hlt⟩ := ih h fun b hb => hp b (List.mem_cons_of_mem a hb)
    simp only [costOf_cons]
    refine ⟨by omega, ?_⟩
    rintro ⟨b, hb, hmore⟩
    rcases List.mem_cons.mp hb with rfl | hb
    · omega
    · have := hlt ⟨b, hb, hmore⟩
      omega

/-- Where every arc of a walk climbs just what it costs, so does the walk. -/
theorem potential_eq {p : Fin n → Int} (h : Leads u w v)
    (hp : ∀ a ∈ w, p a.2 = p a.1 + k a.1 a.2) : p v = p u + costOf k w :=
  le_antisymm (potential_le h fun a ha => (hp a ha).le) (le_potential h fun a ha => (hp a ha).ge).1

theorem exists_lower_bound (k : Matrix n) : ∃ b : Int, ∀ w, Simple w → b ≤ costOf k w := by
  obtain ⟨b, hb⟩ := Finite.exists_le fun a : Fin n × Fin n => |k a.1 a.2|
  refine ⟨-(n * max b 0), fun w hs => ?_⟩
  have hsum := hs.sum_abs_le (le_max_right b 0) fun a _ => (hb a).trans (le_max_left b 0)
  exact (abs_le.mp (abs_costOf_le.trans hsum)).1

/-- The costs of the walks that end in a vertex have a least one. -/
theorem exists_cheapest_into (hk : NoNegativeCycle m k) (v : Fin n) :
    ∃ c, (∃ u w, Walk m u w v ∧ costOf k w = c) ∧ ∀ u w, Walk m u w v → c ≤ costOf k w := by
  obtain ⟨b, hlow⟩ := exists_lower_bound k
  have hbelow : ∀ u w, Walk m u w v → b ≤ costOf k w := by
    intro u w h
    obtain ⟨y, _, hs, hle⟩ := exists_simple_walk h
    exact (hlow y hs).trans (hle k (hk.from u))
  let P : Int → Prop := fun c => ∃ u w, Walk m u w v ∧ costOf k w = c
  have hbdd : ∀ c, P c → b ≤ c := by
    intro c hc
    obtain ⟨u, w, h, rfl⟩ := hc
    exact hbelow u w h
  obtain ⟨c, hc, hmin⟩ := Int.exists_least_of_bdd ⟨_, hbdd⟩ ⟨0, v, [], .nil, rfl⟩
  exact ⟨c, hc, fun u w h => hmin _ ⟨u, w, h, rfl⟩⟩

theorem noNegativeCycle_iff_potential :
    NoNegativeCycle m k ↔ ∃ p : Fin n → Int, ∀ u v, Open m u v → p v ≤ p u + k u v := by
  constructor
  · intro hk
    choose p hp hmin using exists_cheapest_into hk
    refine ⟨p, fun u v huv => ?_⟩
    obtain ⟨x, w, hw, hc⟩ := hp u
    have := hmin v _ _ (hw.snoc huv)
    simpa [hc] using this
  · intro h v w hw _
    obtain ⟨p, hp⟩ := h
    have := potential_le hw.leads fun a ha => hp _ _ (hw.isOpen a ha)
    omega

/-- Potentials for the vertices of a set that no open pair leaves are enough for walks that start there. -/
theorem noNegativeCycleFrom_of_potential {inside : Finset (Fin n)} {p : Fin n → Int} (hu : u ∈ inside)
    (hclosed : ∀ u v, u ∈ inside → Open m u v → v ∈ inside)
    (hp : ∀ u v, u ∈ inside → Open m u v → p v ≤ p u + k u v) : NoNegativeCycleFrom m k u := by
  intro v y c hy hc _
  have hv : v ∈ inside := (hy.inside hclosed hu).1
  have hinside := (hc.inside hclosed hv).2
  have hround := potential_le hc.leads fun a ha => hp a.1 a.2 (hinside a ha).1 (hc.isOpen a ha)
  omega

end MinCostFlow
