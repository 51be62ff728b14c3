/-
  MinCostFlow.Matrix.Lemmas — a matrix is a map on pairs of indices.

  Proved: what is read after a write (`get_set`) and from the zero matrix
  (`get_zeros`); two matrices that read alike are equal (`ext`); `rows` shows the
  values at their places (`getElem?_row`), and two matrices that show the same rows
  are equal (`eq_of_rows`); `isZero` looks at every pair
  (`isZero_iff`); `pairsWhere` lists each pair that satisfies the condition, and
  no other (`mem_pairsWhere`), in the order that it says (`pairsWhere_sorted`).
-/

import MinCostFlow.Matrix.Basic

namespace MinCostFlow.Matrix

variable {n : Nat}

/-! ## The cell of a pair -/

theorem cellIndex_div (i j : Fin n) : (i.val * n + j.val) / n = i.val := by
  have hn : 0 < n := i.pos
  rw [Nat.add_comm, Nat.add_mul_div_right _ _ hn, Nat.div_eq_of_lt j.isLt, Nat.zero_add]

theorem cellIndex_mod (i j : Fin n) : (i.val * n + j.val) % n = j.val := by
  rw [Nat.add_comm, Nat.add_mul_mod_self_right, Nat.mod_eq_of_lt j.isLt]

theorem cellIndex_inj {i j k l : Fin n} :
    i.val * n + j.val = k.val * n + l.val ↔ i = k ∧ j = l := by
  constructor
  · intro h
    have hd := congrArg (· / n) h
    have hm := congrArg (· % n) h
    simp only [cellIndex_div, cellIndex_mod] at hd hm
    exact ⟨Fin.ext hd, Fin.ext hm⟩
  · rintro ⟨rfl, rfl⟩
    rfl

theorem exists_pair_of_lt {k : Nat} (h : k < n * n) :
    ∃ i j : Fin n, i.val * n + j.val = k := by
  have hn : 0 < n := by
    rcases Nat.eq_zero_or_pos n with rfl | hn
    · simp at h
    · exact hn
  refine ⟨⟨k / n, Nat.div_lt_of_lt_mul h⟩, ⟨k % n, Nat.mod_lt k hn⟩, ?_⟩
  have := Nat.div_add_mod k n
  rw [Nat.mul_comm] at this
  exact this

/-! ## Reading and writing -/

@[simp] theorem get_zeros (i j : Fin n) : zeros n i j = 0 := by
  simp [zeros, get]

theorem get_set (m : Matrix n) (i j k l : Fin n) (x : Int) :
    m.set i j x k l = if i = k ∧ j = l then x else m k l := by
  simp only [get, set, Vector.getElem_set, cellIndex_inj]

@[simp] theorem get_set_self (m : Matrix n) (i j : Fin n) (x : Int) : m.set i j x i j = x := by
  simp [get_set]

theorem get_set_ne (m : Matrix n) {i j k l : Fin n} (x : Int) (h : ¬(i = k ∧ j = l)) :
    m.set i j x k l = m k l := by
  simp [get_set, h]

/-- What holds of the value that is written and of every other cell holds of every cell afterwards. -/
theorem forall_set {P : Int → Prop} {m : Matrix n} {i j : Fin n} {x : Int} (hx : P x) (hm : ∀ k l, P (m k l))
    (k l : Fin n) : P (m.set i j x k l) := by
  rw [get_set]
  split
  · exact hx
  · exact hm k l

theorem locate_eq_ok {i j : Nat} {u v : Fin n} : locate n i j = .ok (u, v) ↔ u.val = i ∧ v.val = j := by
  unfold locate
  split
  · rename_i h
    simp only [Except.ok.injEq, Prod.mk.injEq, Fin.ext_iff]
    exact ⟨fun h => ⟨h.1.symm, h.2.symm⟩, fun h => ⟨h.1.symm, h.2.symm⟩⟩
  · rename_i h
    simp only [reduceCtorEq, false_iff]
    intro hij
    exact h ⟨hij.1 ▸ u.isLt, hij.2 ▸ v.isLt⟩

/-- Pairs of indices name their own cells. -/
@[simp] theorem read_val (m : Matrix n) (i j : Fin n) : m.read i j = .ok (m i j) := by
  rw [read, locate_eq_ok.mpr ⟨rfl, rfl⟩]
  rfl

@[simp] theorem write_val (m : Matrix n) (i j : Fin n) (x : Int) : m.write i j x = .ok (m.set i j x) := by
  rw [write, locate_eq_ok.mpr ⟨rfl, rfl⟩]
  rfl

theorem locate_outside {i j : Nat} (h : ¬(i < n ∧ j < n)) : locate n i j = .error (.indexOutOfRange i j n) := dif_neg h

@[ext] theorem ext {a b : Matrix n} (h : ∀ i j, a i j = b i j) : a = b := by
  cases a with
  | mk x =>
    cases b with
    | mk y =>
      congr 1
      apply Vector.ext
      intro k hk
      obtain ⟨i, j, rfl⟩ := exists_pair_of_lt hk
      exact h i j

/-! ## Rows -/

@[simp] theorem length_rows (m : Matrix n) : m.rows.length = n := by simp [rows]

@[simp] theorem length_row (m : Matrix n) (i : Fin n) : (m.row i).length = n := by
  have h : (i.val + 1) * n ≤ n * n := Nat.mul_le_mul_right n i.isLt
  have e : (i.val + 1) * n = i.val * n + n := by rw [Nat.add_mul, Nat.one_mul]
  simp only [row, Array.length_toList, Array.size_extract, Vector.size_toArray]
  omega

theorem getElem?_row (m : Matrix n) (i j : Fin n) : (m.row i)[j.val]? = some (m i j) := by
  simp [row, get]

theorem row_eq_map (m : Matrix n) (i : Fin n) : m.row i = (List.finRange n).map (m i) := by
  refine List.ext_getElem? fun j => ?_
  by_cases hj : j < n
  · rw [m.getElem?_row i ⟨j, hj⟩]
    simp [hj]
  · rw [List.getElem?_eq_none (by simpa using hj), List.getElem?_eq_none (by simpa using hj)]

theorem rows_eq_map (m : Matrix n) : m.rows = (List.finRange n).map fun i => (List.finRange n).map (m i) :=
  List.map_congr_left fun i _ => m.row_eq_map i

theorem eq_of_rows {a b : Matrix n} (h : ∀ i, a.row i = b.row i) : a = b := by
  refine ext fun i j => ?_
  have hcell := a.getElem?_row i j
  rw [h, b.getElem?_row] at hcell
  exact (Option.some.inj hcell).symm

theorem isZero_iff (m : Matrix n) : m.isZero = true ↔ ∀ i j, m i j = 0 := by
  simp only [isZero, Vector.all_eq_true, beq_iff_eq]
  constructor
  · exact fun h i j => h _ (cellIndex_lt i j)
  · intro h k hk
    obtain ⟨i, j, rfl⟩ := exists_pair_of_lt hk
    exact h i j

/-! ## Pairs -/

@[simp] theorem mem_pairsWhere {p : Fin n → Fin n → Bool} {i j : Fin n} :
    (i, j) ∈ pairsWhere n p ↔ p i j = true := by
  simp [pairsWhere]

theorem pairsWhere_sorted (p : Fin n → Fin n → Bool) :
    (pairsWhere n p).Pairwise fun a b => a.1 < b.1 ∨ a.1 = b.1 ∧ a.2 < b.2 := by
  rw [pairsWhere, List.pairwise_flatMap]
  constructor
  · intro i _
    refine ((List.pairwise_lt_finRange n).filter _).map _ ?_
    intro j k hjk
    exact Or.inr ⟨rfl, hjk⟩
  · refine (List.pairwise_lt_finRange n).imp ?_
    intro i k hik x hx y hy
    obtain ⟨_, -, rfl⟩ := List.mem_map.mp hx
    obtain ⟨_, -, rfl⟩ := List.mem_map.mp hy
    exact Or.inl hik

theorem filter_pairsWhere (p : Fin n → Fin n → Bool) (q : Fin n × Fin n → Bool) :
    (pairsWhere n p).filter q = pairsWhere n fun i j => p i j && q (i, j) := by
  simp only [pairsWhere, List.filter_flatMap, List.filter_map, List.filter_filter, Function.comp_apply]
  simp only [Bool.and_comm]

end MinCostFlow.Matrix
