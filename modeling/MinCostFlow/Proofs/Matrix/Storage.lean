/-
  MinCostFlow.Proofs.Matrix.Storage — a matrix is a map on pairs of indices.

  All cells are in one list, row after row: the cell of row `i` and column `j` has the
  address `i * n + j`. Where `n * n` can be counted in 64 bits, so can all that an address
  is calculated from (`address_eq`). An address below `n * n` tells its row and its column,
  so what is written to one pair is not seen at any other. The rows are cut from the list
  without a look at addresses: `n` cells after `n` cells, as long as there are any
  (`rows_eq_toChunks`). There are none of order 0, where pieces of no cells could not be cut.

  Proved: a matrix is created if its cells can be counted. After any sequence of writes to
  its cells, whatever can be seen of it is the last value written to each pair, and zero
  where nothing was written (`create_shows`).
-/

import Mathlib.Data.List.FinRange
import Mathlib.Data.List.Induction
import MinCostFlow.Matrix.Lemmas
import MinCostFlow.Outcome

namespace MinCostFlow.Matrix

variable {n : Nat} {m : Matrix n} {f : Nat → Nat → Int}

/-! ## Pieces of a list -/

section

variable {α : Type} {size : Nat} {xs rest : List α} {xss : List (List α)} {piece : Array α} {done : Array (List α)}

/-- A piece is filled before the next one is begun. -/
theorem chunks_fill (h : piece.size + xs.length ≤ size) :
    List.toChunks.go size (xs ++ rest) piece done = List.toChunks.go size rest (piece ++ xs.toArray) done := by
  induction xs generalizing piece with
  | nil => simp
  | cons x xs ih =>
    rw [List.length_cons] at h
    have hroom : ¬(piece.size == size) = true := by
      rw [beq_iff_eq]
      omega
    rw [List.cons_append, List.toChunks.go, if_neg hroom, ih (by rw [Array.size_push]; omega)]
    simp

theorem chunks_full (hsize : 0 < size) (h : ∀ xs ∈ xss, xs.length = size) (hpiece : piece.size = size) :
    List.toChunks.go size xss.flatten piece done = (done.push piece.toList).toList ++ xss := by
  induction xss generalizing piece done with
  | nil => simp [List.toChunks.go]
  | cons xs xss ih =>
    obtain ⟨hlength, hrest⟩ := List.forall_mem_cons.mp h
    obtain ⟨x, xs, rfl⟩ := List.exists_cons_of_length_pos (hlength ▸ hsize)
    rw [List.length_cons] at hlength
    rw [List.flatten_cons, List.cons_append, List.toChunks.go, if_pos (beq_iff_eq.mpr hpiece),
      chunks_fill (by simp; omega), ih hrest (by simp; omega)]
    simp

/-- What is put together from pieces of one size is cut into the same pieces. -/
theorem toChunks_flatten (hsize : 0 < size) (h : ∀ xs ∈ xss, xs.length = size) :
    xss.flatten.toChunks size = xss := by
  cases xss with
  | nil => simp [List.toChunks]
  | cons xs xss =>
    obtain ⟨hlength, hrest⟩ := List.forall_mem_cons.mp h
    obtain ⟨x, xs, rfl⟩ := List.exists_cons_of_length_pos (hlength ▸ hsize)
    rw [List.length_cons] at hlength
    rw [List.flatten_cons, List.cons_append, List.toChunks, chunks_fill (by simp; omega),
      chunks_full hsize hrest (by simp; omega)]
    · simp
    · rintro rfl
      omega

end

/-! ## Addresses and rows -/

/-- A number that 64 bits hold. -/
def counted (k : Nat) : Option Nat := if k < indexLimit then some k else none

/-- Where the cell of two indices is found, the product calculated before the sum. -/
def address (n row column : Nat) : Option Nat := do
  let first ← counted (row * n)
  counted (first + column)

/-- Neither step leaves 64 bits, because both results are at most the address of the last cell. -/
theorem address_eq (hn : n * n < indexLimit) (i j : Fin n) : address n i j = some (i.val * n + j.val) := by
  have hlt := cellIndex_lt i j
  have hfirst : counted (i.val * n) = some (i.val * n) := if_pos (by omega)
  have hsum : counted (i.val * n + j.val) = some (i.val * n + j.val) := if_pos (by omega)
  rw [address, hfirst]
  exact hsum

theorem map_range {α : Type} (g : Nat → α) : (List.range n).map g = (List.finRange n).map fun i => g i.val := by
  rw [← List.map_coe_finRange_eq_range, List.map_map]
  rfl

theorem flatten_rows (m : Matrix n) : m.rows.flatten = m.cells.toList := by
  have hcells : m.cells.toList = List.ofFn fun k : Fin (n * n) => m.cells[k] := by
    apply List.ext_getElem
    · simp
    · simp
  have hrows : m.rows = List.ofFn fun i => List.ofFn (m i) := by
    simp only [rows_eq_map, List.ofFn_eq_map]
  rw [hcells, hrows, List.ofFn_mul]
  rfl

/-- The rows are the pieces of `n` cells. Without rows there are no pieces, whatever their size. -/
theorem rows_eq_toChunks (m : Matrix n) : m.rows = m.cells.toList.toChunks (max n 1) := by
  rw [← flatten_rows, toChunks_flatten (Nat.le_max_right n 1)]
  intro xs hxs
  obtain ⟨i, -, rfl⟩ := List.mem_map.mp hxs
  rw [length_row, Nat.max_eq_left i.pos]

/-! ## Writes -/

structure Write where
  row : Nat
  column : Nat
  value : Int
  deriving DecidableEq, Repr

def writeAll (m : Matrix n) (ws : List Write) : Except Fault (Matrix n) :=
  ws.foldlM (fun m w => m.write w.row w.column w.value) m

theorem writeAll_snoc (m : Matrix n) (ws : List Write) (w : Write) :
    m.writeAll (ws ++ [w]) = m.writeAll ws >>= fun m' => m'.write w.row w.column w.value := by
  simp only [writeAll, List.foldlM_append, List.foldlM_cons, List.foldlM_nil, bind_pure]

/-- The last value that was written to a pair. -/
def lastWritten (ws : List Write) (row column : Nat) : Option Int :=
  (ws.reverse.find? fun w => w.row = row ∧ w.column = column).map (·.value)

theorem lastWritten_snoc (ws : List Write) (w : Write) (row column : Nat) :
    lastWritten (ws ++ [w]) row column =
      if w.row = row ∧ w.column = column then some w.value else lastWritten ws row column := by
  unfold lastWritten
  rw [List.reverse_append, List.reverse_singleton, List.singleton_append, List.find?_cons]
  by_cases h : w.row = row ∧ w.column = column <;> simp [h]

theorem writeAll_ok {ws : List Write} (h : ∀ w ∈ ws, w.row < n ∧ w.column < n) :
    ∃ m', m.writeAll ws = .ok m' ∧ ∀ i j : Fin n, m' i j = (lastWritten ws i j).getD (m i j) := by
  induction ws using List.reverseRecOn with
  | nil => exact ⟨m, rfl, fun i j => rfl⟩
  | append_singleton ws w ih =>
    obtain ⟨m', hm', hread⟩ := ih fun w' hw' => h w' (List.mem_append_left [w] hw')
    obtain ⟨hrow, hcolumn⟩ := h w (List.mem_append_right ws (List.mem_singleton_self w))
    refine ⟨m'.set ⟨w.row, hrow⟩ ⟨w.column, hcolumn⟩ w.value, ?_, fun i j => ?_⟩
    · rw [writeAll_snoc]
      exact bind_eq_ok.mpr ⟨m', hm', m'.write_val ⟨w.row, hrow⟩ ⟨w.column, hcolumn⟩ w.value⟩
    · rw [get_set, lastWritten_snoc, hread]
      simp only [Fin.ext_iff]
      split <;> rfl

/-! ## What can be seen -/

/-- A matrix of which the value `f i j` is seen at each pair, and nothing else. -/
structure Shows (m : Matrix n) (f : Nat → Nat → Int) : Prop where
  read : ∀ i j, i < n → j < n → m.read i j = .ok (f i j)
  outside : ∀ i j, ¬(i < n ∧ j < n) → m.read i j = .error (.indexOutOfRange i j n) ∧
    ∀ x, m.write i j x = .error (.indexOutOfRange i j n)
  stored : ∀ i j, i < n → j < n → ∃ a, address n i j = some a ∧ m.cells[a]? = some (f i j)
  rows : m.rows = (List.range n).map fun i => (List.range n).map (f i)
  chunks : m.rows = m.cells.toList.toChunks (max n 1)
  isZero : m.isZero = true ↔ ∀ i j, i < n → j < n → m.read i j = .ok 0

theorem shows_of_get (hn : n * n < indexLimit) (h : ∀ i j : Fin n, m i j = f i j) : m.Shows f := by
  have hread : ∀ i j, i < n → j < n → m.read i j = .ok (f i j) := by
    intro i j hi hj
    rw [← h ⟨i, hi⟩ ⟨j, hj⟩]
    exact m.read_val ⟨i, hi⟩ ⟨j, hj⟩
  refine ⟨hread, fun i j hout => ?_, fun i j hi hj => ?_, ?_, m.rows_eq_toChunks, ?_⟩
  · rw [Matrix.read, locate_outside hout]
    refine ⟨rfl, fun x => ?_⟩
    rw [write, locate_outside hout]
    rfl
  · refine ⟨_, address_eq hn ⟨i, hi⟩ ⟨j, hj⟩, ?_⟩
    rw [← h ⟨i, hi⟩ ⟨j, hj⟩]
    exact Vector.getElem?_eq_getElem (cellIndex_lt ⟨i, hi⟩ ⟨j, hj⟩)
  · have hrow : ∀ i : Fin n, m.get i = fun j : Fin n => f i j := fun i => funext (h i)
    simp only [rows_eq_map, map_range, hrow]
  · rw [isZero_iff]
    constructor
    · intro hzero i j hi hj
      rw [hread i j hi hj, ← h ⟨i, hi⟩ ⟨j, hj⟩, hzero]
    · intro hzero i j
      exact Except.ok.inj ((m.read_val i j).symm.trans (hzero i j i.isLt j.isLt))

/-- A matrix of order `n` is created just if `n * n` can be counted. Then after any writes to pairs of indices
each pair has the value that was last written there, or zero, and that is what is read, found at the pair's address,
listed in the rows and looked at by `isZero`; other pairs of numbers can neither be read nor written. -/
theorem create_shows (n : Nat) :
    (indexLimit ≤ n * n → create n = .error (.orderTooLarge n)) ∧
    (n * n < indexLimit → ∃ blank, create n = .ok blank ∧
      ∀ ws : List Write, (∀ w ∈ ws, w.row < n ∧ w.column < n) →
        ∃ m, blank.writeAll ws = .ok m ∧ m.Shows fun i j => (lastWritten ws i j).getD 0) := by
  refine ⟨fun h => if_neg (Nat.not_lt.mpr h), fun hn => ⟨zeros n, if_pos hn, fun ws hws => ?_⟩⟩
  obtain ⟨m, hm, hread⟩ := writeAll_ok (m := zeros n) hws
  refine ⟨m, hm, shows_of_get hn fun i j => ?_⟩
  rw [hread, get_zeros]

/-- One pair is written twice; a matrix of order `2 ^ 32` would have one cell too many. -/
theorem overwritten_shows :
    create 4294967296 = .error (.orderTooLarge 4294967296) ∧
    ∃ blank m, create 2 = .ok blank ∧ blank.writeAll [⟨0, 1, 5⟩, ⟨1, 0, -5⟩, ⟨0, 1, 7⟩] = .ok m ∧
      m.read 0 1 = .ok 7 ∧ m.read 1 1 = .ok 0 ∧ m.read 0 2 = .error (.indexOutOfRange 0 2 2) ∧
      m.rows = [[0, 7], [-5, 0]] := by
  refine ⟨(create_shows 4294967296).1 (by decide), ?_⟩
  obtain ⟨blank, hblank, hwrites⟩ := (create_shows 2).2 (by decide)
  obtain ⟨m, hm, hshows⟩ := hwrites [⟨0, 1, 5⟩, ⟨1, 0, -5⟩, ⟨0, 1, 7⟩] (by decide)
  refine ⟨blank, m, hblank, hm, hshows.read 0 1 ?_ ?_, hshows.read 1 1 ?_ ?_, (hshows.outside 0 2 ?_).1, hshows.rows⟩
  all_goals decide

end MinCostFlow.Matrix
