/-
  MinCostFlow.IntRange — which numbers can be stored.

  Capacities, costs and flows are integers. A range says which of them can be
  stored; every operation whose result may leave the range takes the range as an
  argument and reports a result outside of it instead of wrapping around.
  Vertices and lengths are natural numbers below `indexLimit`, and what is counted step by
  step is a natural number below `counterLimit`, whatever the range.
-/

namespace MinCostFlow

/-- The first natural number that 64 bits do not hold. -/
def indexLimit : Nat := 18446744073709551616

/-- The first natural number that a signed counter of 32 bits does not hold. -/
def counterLimit : Nat := 2147483648

theorem one_lt_counterLimit : 1 < counterLimit := by decide

/-- The integers from `-(top + 1)` to `top`. -/
structure IntRange where
  top : Nat
  deriving DecidableEq, Repr

namespace IntRange

def bottom (r : IntRange) : Int := -(r.top : Int) - 1

instance : Membership Int IntRange := ⟨fun r x => r.bottom ≤ x ∧ x ≤ r.top⟩

instance (r : IntRange) (x : Int) : Decidable (x ∈ r) :=
  inferInstanceAs (Decidable (r.bottom ≤ x ∧ x ≤ r.top))

theorem mem_iff {r : IntRange} {x : Int} : x ∈ r ↔ -(r.top : Int) - 1 ≤ x ∧ x ≤ r.top := Iff.rfl

/-- The signed integers of `bits` bits. -/
def ofBits (bits : Nat) : IntRange := ⟨Nat.pow 2 (bits - 1) - 1⟩

/-- The result `x` of a calculation, or `e` if it cannot be stored. -/
def require {ε : Type} (r : IntRange) (e : ε) (x : Int) : Except ε Int :=
  if x ∈ r then .ok x else .error e

def fit? (r : IntRange) (x : Int) : Option Int := if x ∈ r then some x else none

theorem zero_mem (r : IntRange) : (0 : Int) ∈ r := mem_iff.mpr (by omega)

theorem require_eq_ok {ε : Type} {r : IntRange} {e : ε} {x y : Int} :
    r.require e x = .ok y ↔ x ∈ r ∧ x = y := by
  unfold require
  split <;> simp_all

theorem require_eq_error {ε : Type} {r : IntRange} {e f : ε} {x : Int} :
    r.require e x = .error f ↔ x ∉ r ∧ e = f := by
  unfold require
  split <;> simp_all

theorem fit?_eq_some {r : IntRange} {x y : Int} : r.fit? x = some y ↔ x ∈ r ∧ x = y := by
  unfold fit?
  split <;> simp_all

theorem fit?_eq_none {r : IntRange} {x : Int} : r.fit? x = none ↔ x ∉ r := by
  unfold fit?
  split <;> simp_all

end IntRange

end MinCostFlow
