/-
  MinCostFlow.Proofs.Wider.Basic — the same operation in a wider range.

  A range decides nothing but which results are refused. So an operation that is repeated in
  a range with all numbers of the first one takes the same steps, up to a result that the
  first range refuses. Either both end alike, or the first one ends with a failure that is
  due to its range (`Agrees`). Which failures those are is said by whoever compares.

  Proved: single numbers agree (`Agrees.require`, `fit?_wider`), and so does what is put
  together from operations that agree: one after the other (`Agrees.bind`), all along a list
  (`Agrees.foldlM`, `Agrees.mapM`), and as part of an operation with other failures
  (`Agrees.orFault`, `Agrees.orError`, `Agrees.mapError`).
-/

import MinCostFlow.IntRange
import MinCostFlow.Outcome

namespace MinCostFlow

variable {ε δ α β : Type} {r wide : IntRange} {due : ε → Prop} {e : ε} {xs : List α}

instance : HasSubset IntRange := ⟨fun r wide => ∀ x : Int, x ∈ r → x ∈ wide⟩

/-- The second outcome is the first, unless that is a failure due to the range. -/
inductive Agrees (due : ε → Prop) : Except ε α → Except ε α → Prop
  | same (x : Except ε α) : Agrees due x x
  | refused {e : ε} (y : Except ε α) : due e → Agrees due (.error e) y

namespace Agrees

variable {x y : Except ε α}

theorem ok {a : α} (h : Agrees due x y) (hx : x = .ok a) : y = .ok a := by
  cases h with
  | same => exact hx
  | refused => cases hx

theorem bind {f f' : α → Except ε β} (h : Agrees due x y) (hf : ∀ a, Agrees due (f a) (f' a)) :
    Agrees due (x >>= f) (y >>= f') := by
  cases h with
  | refused y he => exact .refused _ he
  | same =>
    cases x with
    | error e => exact .same _
    | ok a => exact hf a

/-- One step that is the same in both ranges. -/
theorem andThen {f f' : α → Except ε β} (hf : ∀ a, Agrees due (f a) (f' a)) : Agrees due (x >>= f) (x >>= f') :=
  (Agrees.same x).bind hf

theorem foldlM {f f' : β → α → Except ε β} (hf : ∀ b a, Agrees due (f b a) (f' b a)) (b : β) :
    Agrees due (xs.foldlM f b) (xs.foldlM f' b) := by
  induction xs generalizing b with
  | nil => exact .same _
  | cons a xs ih =>
    rw [List.foldlM_cons, List.foldlM_cons]
    exact (hf b a).bind ih

theorem mapM {f f' : α → Except ε β} (hf : ∀ a, Agrees due (f a) (f' a)) : Agrees due (xs.mapM f) (xs.mapM f') := by
  induction xs with
  | nil => exact .same _
  | cons a xs ih =>
    rw [List.mapM_cons, List.mapM_cons]
    exact (hf a).bind fun b => ih.bind fun bs => .same _

/-! ## Failures of one operation among those of another -/

theorem mapError {due' : δ → Prop} {f : ε → δ} (h : Agrees due x y) (hf : ∀ e, due e → due' (f e)) :
    Agrees due' (x.mapError f) (y.mapError f) := by
  cases h with
  | same => exact .same _
  | refused y he => exact .refused _ (hf _ he)

theorem orFault {due' : Failure ε → Prop} {due : Fault → Prop} {x y : Except Fault α} (h : Agrees due x y)
    (hf : ∀ f, due f → due' (.fault f)) : Agrees due' (orFault x) (orFault y) := by
  cases h with
  | same => exact .same _
  | refused y he => exact .refused _ (hf _ he)

theorem orError {due' : Failure ε → Prop} (h : Agrees due x y) (hf : ∀ e, due e → due' (.error e)) :
    Agrees due' (orError x) (orError y) := by
  cases h with
  | same => exact .same _
  | refused y he => exact .refused _ (hf _ he)

end Agrees

/-! ## Numbers -/

namespace Agrees

theorem require (h : r ⊆ wide) (he : due e) (x : Int) : Agrees due (r.require e x) (wide.require e x) := by
  by_cases hx : x ∈ r
  · rw [IntRange.require_eq_ok.mpr ⟨hx, rfl⟩, IntRange.require_eq_ok.mpr ⟨h x hx, rfl⟩]
    exact .same _
  · rw [IntRange.require_eq_error.mpr ⟨hx, rfl⟩]
    exact .refused _ he

theorem demand {p q : Prop} [Decidable p] [Decidable q] (hpq : p → q) (he : due e) :
    Agrees due (demand e p) (demand e q) := by
  by_cases hp : p
  · rw [(demand_eq_ok (u := ())).mpr hp, (demand_eq_ok (u := ())).mpr (hpq hp)]
    exact .same _
  · rw [demand_eq_error.mpr ⟨hp, rfl⟩]
    exact .refused _ he

theorem expect {x y : Option α} (hxy : ∀ a, x = some a → y = some a) (he : due e) :
    Agrees due (expect e x) (expect e y) := by
  cases x with
  | none => exact .refused _ he
  | some a =>
    rw [hxy a rfl]
    exact .same _

end Agrees

theorem fit?_wider (h : r ⊆ wide) {x y : Int} (hx : r.fit? x = some y) : wide.fit? x = some y := by
  obtain ⟨hmem, rfl⟩ := IntRange.fit?_eq_some.mp hx
  exact IntRange.fit?_eq_some.mpr ⟨h x hmem, rfl⟩

theorem foldlM_wider {f f' : β → α → Option β} (hf : ∀ b a c, f b a = some c → f' b a = some c) {b c : β}
    (h : xs.foldlM f b = some c) : xs.foldlM f' b = some c := by
  induction xs generalizing b with
  | nil => exact h
  | cons a xs ih =>
    rw [List.foldlM_cons, Option.bind_eq_bind, Option.bind_eq_some_iff] at h ⊢
    obtain ⟨d, hd, h⟩ := h
    exact ⟨d, hf b a d hd, ih h⟩

end MinCostFlow
