/-
  MinCostFlow.Outcome — operations that may fail.

  An operation is a chain of steps, and its first failing step decides. The lemmas read
  such a chain backwards: `bind_eq_ok` says what a success has gone through, and
  `bind_eq_error` where a failure comes from.
-/

import MinCostFlow.Fault

namespace MinCostFlow

/-- Why an operation with errors of type `ε` did not succeed. -/
inductive Failure (ε : Type) where
  | error (e : ε)
  | fault (f : Fault)
  deriving DecidableEq, Repr

variable {ε α β : Type}

/-- Go on only if `p` holds. -/
def demand (e : ε) (p : Prop) [Decidable p] : Except ε Unit := if p then .ok () else .error e

/-- Go on only with a value. -/
def expect (e : ε) : Option α → Except ε α
  | some a => .ok a
  | none => .error e

/-- Carry a fault into an operation that also has errors. -/
def orFault : Except Fault α → Except (Failure ε) α
  | .ok a => .ok a
  | .error f => .error (.fault f)

/-- Carry an error into an operation that also has faults. -/
def orError : Except ε α → Except (Failure ε) α
  | .ok a => .ok a
  | .error e => .error (.error e)

theorem bind_of_ok {x : Except ε α} {f : α → Except ε β} {a : α} (h : x = .ok a) : (x >>= f) = f a := by
  rw [h]
  rfl

theorem bind_eq_ok {x : Except ε α} {f : α → Except ε β} {b : β} :
    (x >>= f) = .ok b ↔ ∃ a, x = .ok a ∧ f a = .ok b := by
  cases x <;> simp [bind, Except.bind]

theorem bind_eq_error {x : Except ε α} {f : α → Except ε β} {e : ε} :
    (x >>= f) = .error e ↔ x = .error e ∨ ∃ a, x = .ok a ∧ f a = .error e := by
  cases x <;> simp [bind, Except.bind]

theorem pure_eq_ok {a b : α} : (pure a : Except ε α) = .ok b ↔ a = b := by
  simp [pure, Except.pure]

theorem map_eq_ok {x : Except ε α} {f : α → β} {b : β} :
    x.map f = .ok b ↔ ∃ a, x = .ok a ∧ f a = b := by
  cases x <;> simp [Except.map]

theorem mapError_eq_ok {δ : Type} {x : Except ε α} {f : ε → δ} {a : α} :
    x.mapError f = .ok a ↔ x = .ok a := by
  cases x with
  | ok b =>
    show (Except.ok b : Except δ α) = .ok a ↔ _
    simp
  | error e =>
    show (Except.error (f e) : Except δ α) = .ok a ↔ _
    simp

/-- Where a step keeps a view of what it is given, so does going through a list. -/
theorem map_eq_of_mapM {γ : Type} {f : α → Except ε β} {p : α → γ} {q : β → γ}
    (hf : ∀ a b, f a = .ok b → p a = q b) {xs : List α} {ys : List β} (h : xs.mapM f = .ok ys) :
    xs.map p = ys.map q := by
  induction xs generalizing ys with
  | nil =>
    obtain rfl := Except.ok.inj h
    rfl
  | cons x xs ih =>
    simp only [List.mapM_cons, bind_eq_ok, pure_eq_ok] at h
    obtain ⟨y, hy, ys, hys, rfl⟩ := h
    rw [List.map_cons, List.map_cons, hf x y hy, ih hys]

theorem demand_eq_ok {e : ε} {p : Prop} [Decidable p] {u : Unit} : demand e p = .ok u ↔ p := by
  unfold demand
  split <;> simp_all

theorem demand_eq_error {e d : ε} {p : Prop} [Decidable p] :
    demand e p = .error d ↔ ¬p ∧ e = d := by
  unfold demand
  split <;> simp_all

theorem expect_eq_ok {e : ε} {o : Option α} {a : α} : expect e o = .ok a ↔ o = some a := by
  cases o <;> simp [expect]

theorem expect_eq_error {e d : ε} {o : Option α} : expect e o = .error d ↔ o = none ∧ e = d := by
  cases o <;> simp [expect]

theorem orFault_eq_ok {x : Except Fault α} {a : α} :
    (orFault x : Except (Failure ε) α) = .ok a ↔ x = .ok a := by
  cases x <;> simp [orFault]

theorem orFault_eq_error {x : Except Fault α} {e : Failure ε} :
    orFault x = .error e ↔ ∃ f, x = .error f ∧ .fault f = e := by
  cases x <;> simp [orFault]

theorem orError_eq_ok {x : Except ε α} {a : α} :
    (orError x : Except (Failure ε) α) = .ok a ↔ x = .ok a := by
  cases x <;> simp [orError]

theorem orError_eq_error {x : Except ε α} {e : Failure ε} :
    orError x = .error e ↔ ∃ d, x = .error d ∧ .error d = e := by
  cases x <;> simp [orError]

end MinCostFlow
