/-
  MinCostFlow.Path.Labels — the labels of a cheapest path search.

  A labelled vertex has been reached from the source. Its label holds what the
  cheapest known way there costs and the vertex before it on that way; the source
  starts with a label that has no vertex before it. Relaxing the arc from `u` to `v`
  offers `v` the way through `u`.

  The improvements of a pass are counted, and counters are signed numbers of 32 bits. One
  improvement more than they hold is a fault. By then the new label has been written.
-/

import MinCostFlow.SolveError

namespace MinCostFlow

structure Label (n : Nat) where
  cost : Int
  parent : Option (Fin n)
  deriving DecidableEq, Repr

abbrev Labels (n : Nat) := Vector (Option (Label n)) n

namespace Labels

variable {n : Nat}

def label (labels : Labels n) (v : Fin n) : Option (Label n) := labels[v]

def put (labels : Labels n) (v : Fin n) (l : Label n) : Labels n := labels.set v (some l)

/-- Only the source is reached, at no cost. -/
def start (source : Fin n) : Labels n := put (Vector.replicate n none) source ⟨0, none⟩

theorem label_put (labels : Labels n) (u v : Fin n) (l : Label n) :
    (labels.put u l).label v = if u = v then some l else labels.label v := by
  simp [label, put, Vector.getElem_set, Fin.ext_iff]

theorem label_start (source v : Fin n) :
    (start source).label v = if source = v then some ⟨0, none⟩ else none := by
  simp only [start, label_put]
  simp [label]

/-- A way of cost `c` improves on a label that is missing or costs more. -/
def improves (c : Int) : Option (Label n) → Bool
  | none => true
  | some l => c < l.cost

/-- The labels with the way to `v` through `u`, if that is an improvement. Its cost has to be in
range, be it one or not. -/
def improve (r : IntRange) (g : Network n) (labels : Labels n) (u v : Fin n) :
    Except SolveError (Option (Labels n)) :=
  match labels.label u with
  | none => return none
  | some l => do
    let c ← r.require (.overflow .costLabel) (l.cost + g.cost u v)
    if improves c (labels.label v) then
      return some (labels.put v ⟨c, some u⟩)
    return none

/-- The labels during a pass, and the number of improvements that it has made, which is below
`counterLimit`. -/
structure Pass (n : Nat) where
  labels : Labels n
  improved : Nat
  deriving DecidableEq, Repr

/-- Relax one arc, and count if it has improved a label. -/
def relax (r : IntRange) (g : Network n) (p : Pass n) (u v : Fin n) : Except (Failure SolveError) (Pass n) := do
  match ← orError (improve r g p.labels u v) with
  | none => return p
  | some labels =>
    demand (.fault .counterOverflow) (p.improved + 1 < counterLimit)
    return ⟨labels, p.improved + 1⟩

/-- Relax the given arcs one after the other. -/
def relaxAll (r : IntRange) (g : Network n) (arcs : List (Fin n × Fin n)) (labels : Labels n) :
    Except (Failure SolveError) (Pass n) :=
  arcs.foldlM (fun p (u, v) => relax r g p u v) ⟨labels, 0⟩

end Labels

end MinCostFlow
