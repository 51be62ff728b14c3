/-
  MinCostFlow.Matrix.Basic — square matrices of integers, stored row by row.

  A matrix of order `n` is a map on pairs of indices below `n`: `m i j` reads and
  `m.set i j x` writes, and neither can miss. `read` and `write` take any two
  numbers and answer with a fault where there is no cell.
-/

import MinCostFlow.Fault
import MinCostFlow.IntRange

namespace MinCostFlow

structure Matrix (n : Nat) where
  /-- The cell of row `i` and column `j` has index `i * n + j`. -/
  cells : Vector Int (n * n)
  deriving DecidableEq, Repr

namespace Matrix

variable {n : Nat}

theorem cellIndex_lt (i j : Fin n) : i.val * n + j.val < n * n := by
  have h : (i.val + 1) * n ≤ n * n := Nat.mul_le_mul_right n i.isLt
  have e : (i.val + 1) * n = i.val * n + n := by rw [Nat.add_mul, Nat.one_mul]
  have := j.isLt
  omega

def get (m : Matrix n) (i j : Fin n) : Int :=
  have := cellIndex_lt i j
  m.cells[i.val * n + j.val]

instance : CoeFun (Matrix n) (fun _ => Fin n → Fin n → Int) := ⟨get⟩

def set (m : Matrix n) (i j : Fin n) (x : Int) : Matrix n :=
  ⟨m.cells.set (i.val * n + j.val) x (cellIndex_lt i j)⟩

def zeros (n : Nat) : Matrix n := ⟨Vector.replicate (n * n) 0⟩

/-- The zero matrix of an order given at run time; its cells have to be countable. -/
def create (order : Nat) : Except Fault (Matrix order) :=
  if order * order < indexLimit then .ok (zeros order) else .error (.orderTooLarge order)

/-- The cell named by two numbers, if there is one. -/
def locate (n row column : Nat) : Except Fault (Fin n × Fin n) :=
  if h : row < n ∧ column < n then .ok (⟨row, h.1⟩, ⟨column, h.2⟩)
  else .error (.indexOutOfRange row column n)

def read (m : Matrix n) (row column : Nat) : Except Fault Int :=
  (locate n row column).map fun (i, j) => m i j

def write (m : Matrix n) (row column : Nat) (x : Int) : Except Fault (Matrix n) :=
  (locate n row column).map fun (i, j) => m.set i j x

/-- The `i`-th block of `n` cells. -/
def row (m : Matrix n) (i : Fin n) : List Int :=
  (m.cells.toArray.extract (i.val * n) (i.val * n + n)).toList

def rows (m : Matrix n) : List (List Int) := (List.finRange n).map m.row

def isZero (m : Matrix n) : Bool := m.cells.all (· == 0)

/-- The pairs of indices that satisfy `p`, by row and then by column. -/
def pairsWhere (n : Nat) (p : Fin n → Fin n → Bool) : List (Fin n × Fin n) :=
  (List.finRange n).flatMap fun i => ((List.finRange n).filter (p i)).map fun j => (i, j)

end Matrix

end MinCostFlow
