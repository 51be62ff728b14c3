/-
  MinCostFlow.Proofs.PartialSums — sums of which every partial sum has to be in range.

  Proved: such a sum depends on nothing but the terms that are listed (`foldlM_congr`). It is
  given just where all the sums along the list are in range, and then it is exact
  (`foldlM_eq_some_iff`). So it is given where the sum of all terms without their signs can be
  stored (`foldlM_of_abs_le`); and where all terms have one sign, which leaves no partial sum
  outside of what lies between the start and the whole sum (`partialSum_mem`, `foldlM_fit?`).
-/

import Mathlib.Algebra.Order.BigOperators.Group.List
import Mathlib.Algebra.Order.BigOperators.Group.Multiset
import Mathlib.Algebra.Order.Group.Abs
import Mathlib.Algebra.Order.Ring.Int
import MinCostFlow.IntRange

namespace MinCostFlow

variable {α : Type} {r : IntRange} {f : α → Int} {xs part : List α} {b c : Int}

/-- Steps that take the listed terms the same way add up the same. -/
theorem foldlM_congr {β : Type} {m : Type → Type} [Monad m] {step step' : β → α → m β}
    (hstep : ∀ x ∈ xs, ∀ b, step b x = step' b x) (b : β) : xs.foldlM step b = xs.foldlM step' b := by
  induction xs generalizing b with
  | nil => rfl
  | cons x xs ih =>
    rw [List.foldlM_cons, List.foldlM_cons, hstep x (List.mem_cons_self ..)]
    congr 1
    funext c
    exact ih (fun y hy => hstep y (List.mem_cons_of_mem x hy)) c

theorem IntRange.mem_of_abs_le {x : Int} (h : |x| ≤ r.top) : x ∈ r := by
  have := abs_le.mp h
  exact IntRange.mem_iff.mpr ⟨by omega, this.2⟩

/-- Each step has to be allowed, and each sum along the list to be in range. -/
theorem foldlM_eq_some_iff {step : Int → α → Option Int} {allowed : α → Prop}
    (hstep : ∀ total x y, step total x = some y ↔ allowed x ∧ total + f x ∈ r ∧ y = total + f x) (hb : b ∈ r) :
    xs.foldlM step b = some c ↔
      (∀ x ∈ xs, allowed x) ∧ (∀ front, front <+: xs → b + (front.map f).sum ∈ r) ∧ c = b + (xs.map f).sum := by
  induction xs generalizing b with
  | nil => simp [hb, eq_comm]
  | cons x xs ih =>
    rw [List.foldlM_cons, Option.bind_eq_bind, Option.bind_eq_some_iff]
    constructor
    · rintro ⟨y, hy, h⟩
      obtain ⟨hx, hr, rfl⟩ := (hstep b x y).mp hy
      obtain ⟨hxs, hsums, hc⟩ := (ih hr).mp h
      refine ⟨List.forall_mem_cons.mpr ⟨hx, hxs⟩, fun front hfront => ?_, ?_⟩
      · rcases List.prefix_cons_iff.mp hfront with rfl | ⟨rest, rfl, hrest⟩
        · simpa using hb
        · rw [List.map_cons, List.sum_cons, ← add_assoc]
          exact hsums rest hrest
      · rw [hc, List.map_cons, List.sum_cons, add_assoc]
    · rintro ⟨hall, hsums, hc⟩
      obtain ⟨hx, hxs⟩ := List.forall_mem_cons.mp hall
      have hfronts : ∀ front, front <+: xs → b + f x + (front.map f).sum ∈ r := by
        intro front hfront
        have := hsums (x :: front) (List.prefix_cons_iff.mpr (Or.inr ⟨front, rfl, hfront⟩))
        rwa [List.map_cons, List.sum_cons, ← add_assoc] at this
      have hr : b + f x ∈ r := by simpa using hfronts [] List.nil_prefix
      refine ⟨b + f x, (hstep b x _).mpr ⟨hx, hr, rfl⟩, (ih hr).mpr ⟨hxs, hfronts, ?_⟩⟩
      rw [hc, List.map_cons, List.sum_cons, add_assoc]

/-- Terms of one sign lead from the start straight to the whole sum. -/
theorem partialSum_mem (hsign : (∀ x ∈ xs, 0 ≤ f x) ∨ ∀ x ∈ xs, f x ≤ 0) (hb : b ∈ r)
    (h : b + (xs.map f).sum ∈ r) (hp : part.Sublist xs) : b + (part.map f).sum ∈ r := by
  rw [IntRange.mem_iff] at hb h ⊢
  rcases hsign with hpos | hneg
  · have hle : (part.map f).sum ≤ (xs.map f).sum := (hp.map f).sum_le_sum (by simpa using hpos)
    have hnonneg : 0 ≤ (part.map f).sum := List.sum_nonneg (by simpa using fun x hx => hpos x (hp.subset hx))
    omega
  · have hle : ((part.map f).map (-·)).sum ≤ ((xs.map f).map (-·)).sum :=
      ((hp.map f).map _).sum_le_sum (by simpa using hneg)
    have hnonneg : 0 ≤ ((part.map f).map (-·)).sum :=
      List.sum_nonneg (by simpa using fun x hx => hneg x (hp.subset hx))
    simp only [← List.sum_neg] at hle hnonneg
    omega

/-- No sum of some of the terms gets further from nothing than all of them without their signs. -/
theorem abs_partialSum_le (hp : part.Sublist xs) : |(part.map f).sum| ≤ (xs.map fun x => |f x|).sum :=
  calc |(part.map f).sum|
      ≤ (part.map fun x => |f x|).sum := by
        simpa [Function.comp_def] using Multiset.abs_sum_le_sum_abs (s := (part.map f : Multiset Int))
    _ ≤ (xs.map fun x => |f x|).sum := (hp.map _).sum_le_sum (by simp)

theorem foldlM_of_abs_le {step : Int → α → Option Int} {allowed : α → Prop}
    (hstep : ∀ total x y, step total x = some y ↔ allowed x ∧ total + f x ∈ r ∧ y = total + f x)
    (hallowed : ∀ x, f x ∈ r → allowed x) (h : |b| + (xs.map fun x => |f x|).sum ≤ r.top) :
    ∃ c, xs.foldlM step b = some c := by
  have hsums : ∀ part : List α, part.Sublist xs → b + (part.map f).sum ∈ r := by
    intro part hp
    have hpart := abs_partialSum_le (f := f) hp
    have htotal : |b + (part.map f).sum| ≤ |b| + |(part.map f).sum| := abs_add_le ..
    exact IntRange.mem_of_abs_le (by omega)
  have hterms : ∀ x ∈ xs, f x ∈ r := by
    intro x hx
    have hterm := abs_partialSum_le (f := f) (List.singleton_sublist.mpr hx)
    rw [List.map_singleton, List.sum_singleton] at hterm
    have hb := abs_nonneg b
    exact IntRange.mem_of_abs_le (by omega)
  have hb : b ∈ r := by simpa using hsums [] (List.nil_sublist xs)
  exact ⟨_, (foldlM_eq_some_iff hstep hb).mpr
    ⟨fun x hx => hallowed x (hterms x hx), fun front hfront => hsums front hfront.sublist, rfl⟩⟩

theorem fit?_step_iff (f : α → Int) (total : Int) (x : α) (y : Int) :
    r.fit? (total + f x) = some y ↔ True ∧ total + f x ∈ r ∧ y = total + f x := by
  rw [IntRange.fit?_eq_some, true_and, eq_comm (a := y)]

theorem foldlM_fit? (h : ∀ x ∈ xs, 0 ≤ f x) (hb : b ∈ r) :
    xs.foldlM (fun total x => r.fit? (total + f x)) b = r.fit? (b + (xs.map f).sum) := by
  apply Option.ext
  intro c
  rw [foldlM_eq_some_iff (fit?_step_iff f) hb, IntRange.fit?_eq_some]
  constructor
  · rintro ⟨-, hsums, rfl⟩
    exact ⟨hsums xs List.prefix_rfl, rfl⟩
  · rintro ⟨hr, rfl⟩
    exact ⟨fun _ _ => trivial, fun front hfront => partialSum_mem (Or.inl h) hb hr hfront.sublist, rfl⟩

end MinCostFlow
