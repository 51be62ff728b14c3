/-
  MinCostFlow.Proofs.Report.Table — when the numbers in a table can be told apart.

  Nothing stands between two cells. As long as none is wider than five characters, the cells of
  a row begin where they should, and no row of as many numbers is shorter (`rowChars_inj_of_fit`).
  Numbers of at most five digits are told apart although a sign can make a cell wider. Where two
  readings of a row part, one of them lags behind by a digit. From there on each cell has to be
  five digits, so this one never catches up (`rowChars_not_shifted`). With six digits it may:
  100001 and 10000 side by side look like 10000 and 110000.

  Proved: in tables of several columns the numbers of a type can be told apart exactly if they
  have at most 17 bits, and those of a matrix, whatever their type, if they fit their cells
  (`table_readable`).
-/

import MinCostFlow.Matrix.Lemmas
import MinCostFlow.Proofs.Report.Framing
import MinCostFlow.Report.Table

namespace MinCostFlow.Report

variable {n : Nat} {m k : Matrix n} {x y : Int} {xs ys : List Int} {d : Char} {chars chars' rest rest' : List Char}

/-- Of two texts that begin the same text, the one that is longer by a character has it at the end. -/
theorem eq_concat_of_append (h : chars ++ rest = chars' ++ rest') (hlength : chars'.length = chars.length + 1) :
    ∃ c, chars' = chars ++ [c] ∧ rest = c :: rest' := by
  rcases List.append_eq_append_iff.mp h with ⟨more, rfl, hrest⟩ | ⟨more, rfl, -⟩
  · rw [List.length_append] at hlength
    obtain ⟨c, rfl⟩ := List.length_eq_one_iff.mp (Nat.add_left_cancel hlength)
    exact ⟨c, rfl, hrest⟩
  · rw [List.length_append] at hlength
    omega

/-! ## Cells -/

/-- What a table shows for `x`. -/
def cellChars (x : Int) : List Char := (cell x.repr).toList

theorem cellChars_eq (x : Int) :
    cellChars x = List.replicate (5 - x.repr.toList.length) ' ' ++ x.repr.toList := by
  simp [cellChars, cell, Text.alignRight, cellWidth, String.length_toList]

theorem length_cellChars (x : Int) : (cellChars x).length = max 5 x.repr.toList.length := by
  rw [cellChars_eq, List.length_append, List.length_replicate]
  omega

/-- Without the blanks, a cell is the number. -/
theorem cellChars_inj (h : cellChars x = cellChars y) : x = y := by
  have hnumber : ∀ x, (cellChars x).filter (· ≠ ' ') = x.repr.toList := by
    intro x
    have hkept : x.repr.toList.filter (· ≠ ' ') = x.repr.toList := by
      refine List.filter_eq_self.mpr fun c hc => decide_eq_true ?_
      rintro rfl
      exact absurd (numeric_of_mem_number hc) (by decide)
    rw [cellChars_eq, List.filter_append, hkept, List.filter_eq_nil_iff.mpr]
    · rfl
    · intro c hc
      simp [(List.mem_replicate.mp hc).2]
  exact number_inj (by rw [← hnumber x, h, hnumber y])

theorem length_natural_le {k width : Nat} (hwidth : 0 < width) :
    k.repr.toList.length ≤ width ↔ k < Nat.pow 10 width := by
  rw [Nat.toList_repr]
  exact Nat.length_toDigits_le_iff (by decide) hwidth

/-! ## Numbers of five digits -/

/-- A cell of a number of at most five digits: only the sign can make it wider. -/
inductive Short : List Char → Prop
  | blank {rest : List Char} : rest.length = 4 → Short (' ' :: rest)
  | digits {ds : List Char} : ds.length = 5 → (∀ d ∈ ds, d.isDigit = true) → Short ds
  | signed {ds : List Char} : ds.length = 4 ∨ ds.length = 5 → (∀ d ∈ ds, d.isDigit = true) → Short ('-' :: ds)

theorem short_cellChars (hx : x.natAbs < 100000) : Short (cellChars x) := by
  have hlength : x.natAbs.repr.toList.length ≤ 5 := (length_natural_le (by decide)).mpr hx
  have hdigits : ∀ d ∈ x.natAbs.repr.toList, d.isDigit = true := fun d hd => isDigit_of_mem_natural hd
  by_cases hwide : x.repr.toList.length < 5
  · obtain ⟨j, hj⟩ : ∃ j, 5 - x.repr.toList.length = j + 1 := ⟨4 - x.repr.toList.length, by omega⟩
    rw [cellChars_eq, hj, List.replicate_succ, List.cons_append]
    refine .blank ?_
    rw [List.length_append, List.length_replicate]
    omega
  · rw [cellChars_eq, Nat.sub_eq_zero_of_le (Nat.le_of_not_lt hwide), List.replicate_zero, List.nil_append]
    rcases Int.lt_or_le x 0 with hneg | hnonneg
    · rw [number_of_neg hneg] at hwide ⊢
      simp only [List.length_cons] at hwide
      exact .signed (by omega) hdigits
    · rw [number_of_nonneg hnonneg] at hwide ⊢
      exact .digits (by omega) hdigits

namespace Short

theorem length_bounds (h : Short chars) : 5 ≤ chars.length ∧ chars.length ≤ 6 := by
  cases h with
  | blank h => simp only [List.length_cons]; omega
  | digits h => omega
  | signed h => simp only [List.length_cons]; omega

/-- Where a digit stands first, there are four more and then the next cell. -/
theorem of_digit (h : Short chars) (hd : d.isDigit = true) (he : chars ++ rest = d :: rest') :
    ∃ ds, ds.length = 4 ∧ (∀ e ∈ ds, e.isDigit = true) ∧ rest' = ds ++ rest := by
  cases h with
  | blank =>
    obtain ⟨rfl, -⟩ := List.cons.inj he
    cases hd
  | digits hlength hdigits =>
    obtain ⟨e, ds, rfl⟩ := List.exists_cons_of_length_eq_add_one hlength
    exact ⟨ds, Nat.succ.inj hlength, (List.forall_mem_cons.mp hdigits).2, ((List.cons.inj he).2).symm⟩
  | signed =>
    obtain ⟨rfl, -⟩ := List.cons.inj he
    cases hd

/-- What the wider of two cells that begin alike has more is a digit. -/
theorem of_longer (h : Short chars) (h' : Short chars') (he : chars ++ rest = chars' ++ rest')
    (hlt : chars.length < chars'.length) : ∃ d : Char, d.isDigit = true ∧ rest = d :: rest' := by
  have hmin := h.length_bounds.1
  have hmax := h'.length_bounds.2
  obtain ⟨d, rfl, hrest⟩ := eq_concat_of_append he (by omega)
  obtain ⟨c, cs, rfl⟩ := List.exists_cons_of_length_pos (show 0 < chars.length by omega)
  refine ⟨d, ?_, hrest⟩
  rw [List.cons_append] at h'
  cases h' with
  | blank hlength => simp only [List.length_append, List.length_cons] at hlength hmin; omega
  | digits hlength => simp only [List.length_append, List.length_cons] at hlength hmin; omega
  | signed _ hdigits => exact hdigits d (List.mem_append_right cs (List.mem_singleton.mpr rfl))

end Short

/-! ## Rows -/

/-- A row without its number. -/
def rowChars (xs : List Int) : List Char := xs.flatMap cellChars

@[simp] theorem rowChars_nil : rowChars [] = [] := rfl

@[simp] theorem rowChars_cons : rowChars (x :: xs) = cellChars x ++ rowChars xs := rfl

/-- A digit more in front, and the cells of two rows do not come to an end together. -/
theorem rowChars_not_shifted (hd : d.isDigit = true) (hlength : xs.length = ys.length)
    (hxs : ∀ x ∈ xs, x.natAbs < 100000) (hys : ∀ y ∈ ys, y.natAbs < 100000) : rowChars xs ≠ d :: rowChars ys := by
  induction xs generalizing ys d with
  | nil => simp
  | cons x xs ih =>
    intro h
    obtain ⟨y, ys, rfl⟩ := List.exists_cons_of_length_eq_add_one hlength.symm
    obtain ⟨hx, hxs⟩ := List.forall_mem_cons.mp hxs
    obtain ⟨hy, hys⟩ := List.forall_mem_cons.mp hys
    -- The cell of `x` begins one character before that of `y`, so both are five digits.
    obtain ⟨ds, hds, hdigits, h⟩ := (short_cellChars hx).of_digit hd h
    obtain ⟨e, ds, rfl⟩ := List.exists_cons_of_length_eq_add_one hds
    obtain ⟨es, hes, hdigits', h⟩ := (short_cellChars hy).of_digit (hdigits e List.mem_cons_self) h
    obtain ⟨f, rfl, hrest⟩ := eq_concat_of_append h (hes.trans hds.symm)
    exact ih (hdigits' f (List.mem_append_right ds (List.mem_singleton.mpr rfl))) (Nat.succ.inj hlength) hxs hys hrest

theorem rowChars_inj_of_digits (hlength : xs.length = ys.length) (hxs : ∀ x ∈ xs, x.natAbs < 100000)
    (hys : ∀ y ∈ ys, y.natAbs < 100000) (h : rowChars xs = rowChars ys) : xs = ys := by
  induction xs generalizing ys with
  | nil => exact (List.eq_nil_of_length_eq_zero hlength.symm).symm
  | cons x xs ih =>
    obtain ⟨y, ys, rfl⟩ := List.exists_cons_of_length_eq_add_one hlength.symm
    obtain ⟨hx, hxs⟩ := List.forall_mem_cons.mp hxs
    obtain ⟨hy, hys⟩ := List.forall_mem_cons.mp hys
    have hlength := Nat.succ.inj hlength
    rw [rowChars_cons, rowChars_cons] at h
    rcases Nat.lt_trichotomy (cellChars x).length (cellChars y).length with hlt | heq | hgt
    · obtain ⟨d, hd, hshifted⟩ := (short_cellChars hx).of_longer (short_cellChars hy) h hlt
      exact absurd hshifted (rowChars_not_shifted hd hlength hxs hys)
    · obtain ⟨hcell, hrest⟩ := List.append_inj h heq
      rw [cellChars_inj hcell, ih hlength hxs hys hrest]
    · obtain ⟨d, hd, hshifted⟩ := (short_cellChars hy).of_longer (short_cellChars hx) h.symm hgt
      exact absurd hshifted (rowChars_not_shifted hd hlength.symm hys hxs)

/-- The number has room in its cell. -/
def Fits (x : Int) : Prop := -10000 < x ∧ x < 100000

theorem length_cellChars_of_fits (hx : Fits x) : (cellChars x).length = 5 := by
  obtain ⟨hlow, hhigh⟩ := hx
  rw [length_cellChars]
  refine Nat.max_eq_left ?_
  rcases Int.lt_or_le x 0 with hneg | hnonneg
  · have hfour : x.natAbs.repr.toList.length ≤ 4 :=
      (length_natural_le (by decide)).mpr (show x.natAbs < 10000 by omega)
    rw [number_of_neg hneg]
    exact Nat.succ_le_succ hfour
  · rw [number_of_nonneg hnonneg]
    exact (length_natural_le (by decide)).mpr (show x.natAbs < 100000 by omega)

theorem length_rowChars_ge (xs : List Int) : 5 * xs.length ≤ (rowChars xs).length := by
  induction xs with
  | nil => exact Nat.zero_le _
  | cons x xs ih =>
    have hcell := length_cellChars x
    rw [rowChars_cons, List.length_append, List.length_cons]
    omega

theorem length_rowChars_of_fit (hxs : ∀ x ∈ xs, Fits x) : (rowChars xs).length = 5 * xs.length := by
  induction xs with
  | nil => rfl
  | cons x xs ih =>
    obtain ⟨hx, hxs⟩ := List.forall_mem_cons.mp hxs
    have hcell := length_cellChars_of_fits hx
    have hrest := ih hxs
    rw [rowChars_cons, List.length_append, List.length_cons]
    omega

/-- The other row has no room for a wider cell. -/
theorem rowChars_inj_of_fit (hlength : xs.length = ys.length) (hxs : ∀ x ∈ xs, Fits x)
    (h : rowChars xs = rowChars ys) : xs = ys := by
  induction xs generalizing ys with
  | nil => exact (List.eq_nil_of_length_eq_zero hlength.symm).symm
  | cons x xs ih =>
    obtain ⟨y, ys, rfl⟩ := List.exists_cons_of_length_eq_add_one hlength.symm
    obtain ⟨hx, hxs⟩ := List.forall_mem_cons.mp hxs
    have hlength := Nat.succ.inj hlength
    rw [rowChars_cons, rowChars_cons] at h
    have hcells : (cellChars x).length = (cellChars y).length := by
      have htotal := congrArg List.length h
      have hthis := length_cellChars_of_fits hx
      have hother := length_cellChars y
      have hthese := length_rowChars_of_fit hxs
      have hothers := length_rowChars_ge ys
      simp only [List.length_append] at htotal
      omega
    obtain ⟨hcell, hrest⟩ := List.append_inj h hcells
    rw [cellChars_inj hcell, ih hlength hxs hrest]

/-! ## Tables -/

/-- A line of a table. -/
def tableLine (number : Nat) (values : List Int) : String :=
  cell (toString number) ++ String.join (values.map fun x => cell (toString x))

def headerLine (n : Nat) : String := cell "" ++ String.join ((List.range n).map fun j => cell (toString j))

theorem table_eq (m : Matrix n) : table m = unlines (headerLine n :: m.rows.mapIdx tableLine) := by
  have hrows : (m.rows.mapIdx tableLine).map (· ++ "\n") = m.rows.mapIdx tableRow := by
    refine List.ext_getElem? fun i => ?_
    simp only [List.getElem?_map, List.getElem?_mapIdx, Option.map_map]
    rfl
  have hcons : ∀ line lines, unlines (line :: lines) = line ++ "\n" ++ unlines lines := by
    intro line lines
    exact String.toList_injective (by simp [toList_unlines_cons])
  rw [hcons, unlines, hrows]
  rfl

theorem toList_tableLine (number : Nat) (values : List Int) :
    (tableLine number values).toList = (cell (toString number)).toList ++ rowChars values := by
  simp only [tableLine, String.toList_append, String.toList_join, List.flatMap_map]
  rfl

@[simp] theorem oneLine_cell {text : String} : OneLine (cell text) ↔ OneLine text := not_congr (mem_cell (by decide))

theorem oneLine_tableLine (number : Nat) (values : List Int) : OneLine (tableLine number values) := by
  simp [tableLine]

theorem oneLine_headerLine (n : Nat) : OneLine (headerLine n) := by
  have hcorner : OneLine "" := by decide
  simp [headerLine, hcorner]

/-- A table shows as much of a matrix as its rows do. -/
theorem table_eq_iff : table m = table k ↔ ∀ i, rowChars (m.row i) = rowChars (k.row i) := by
  have hlines : ∀ (m : Matrix n), ∀ line ∈ headerLine n :: m.rows.mapIdx tableLine, OneLine line := by
    intro m
    refine List.forall_mem_cons.mpr ⟨oneLine_headerLine n, fun line hline => ?_⟩
    obtain ⟨i, _, rfl⟩ := List.mem_mapIdx.mp hline
    exact oneLine_tableLine i _
  have hline : ∀ (m : Matrix n) (i : Fin n), (m.rows.mapIdx tableLine)[i.val]? = some (tableLine i (m.row i)) := by
    intro m i
    simp [Matrix.rows]
  constructor
  · intro h i
    rw [table_eq, table_eq] at h
    have hrows := (List.cons.inj (unlines_inj (hlines m) (hlines k) h)).2
    have hrow := Option.some.inj ((hline m i).symm.trans (hrows ▸ hline k i))
    have hchars := congrArg String.toList hrow
    rw [toList_tableLine, toList_tableLine] at hchars
    exact List.append_cancel_left hchars
  · intro h
    rw [table_eq, table_eq]
    congr 2
    refine List.ext_getElem? fun j => ?_
    by_cases hj : j < n
    · rw [hline m ⟨j, hj⟩, hline k ⟨j, hj⟩]
      refine congrArg some (String.toList_injective ?_)
      rw [toList_tableLine, toList_tableLine, h]
    · simp [hj, Matrix.rows]

/-! ## Readable tables -/

/-- Of the matrices of order `n` with values in range, a table shows one only. -/
def Readable (r : IntRange) (n : Nat) : Prop :=
  ∀ m k : Matrix n, (∀ i j, m i j ∈ r) → (∀ i j, k i j ∈ r) → table m = table k → m = k

/-- Rows that can be told apart make matrices that can be. -/
theorem eq_of_table (hrow : ∀ i, rowChars (m.row i) = rowChars (k.row i) → m.row i = k.row i)
    (h : table m = table k) : m = k :=
  Matrix.eq_of_rows fun i => hrow i (table_eq_iff.mp h i)

theorem forall_mem_row {P : Int → Prop} (h : ∀ i j, P (m i j)) (i : Fin n) : ∀ x ∈ m.row i, P x := by
  rw [Matrix.row_eq_map]
  exact List.forall_mem_map.mpr fun j _ => h i j

theorem length_row_eq (m k : Matrix n) (i : Fin n) : (m.row i).length = (k.row i).length := by
  rw [m.length_row, k.length_row]

theorem eq_of_table_of_fit (hm : ∀ i j, Fits (m i j)) (h : table m = table k) : m = k :=
  eq_of_table (fun i => rowChars_inj_of_fit (length_row_eq m k i) (forall_mem_row hm i)) h

theorem readable_of_digits {r : IntRange} (hr : ∀ x ∈ r, x.natAbs < 100000) : Readable r n := by
  intro m k hm hk
  refine eq_of_table fun i => rowChars_inj_of_digits (length_row_eq m k i) ?_ ?_
  · exact forall_mem_row (fun i j => hr _ (hm i j)) i
  · exact forall_mem_row (fun i j => hr _ (hk i j)) i

/-- A single cell is a whole row. -/
theorem readable_of_order (r : IntRange) (hn : n ≤ 1) : Readable r n := by
  intro m k _ _
  refine eq_of_table fun i h => ?_
  have hm := m.length_row i
  have hk := k.length_row i
  have hpos := i.pos
  obtain ⟨x, hx⟩ := List.length_eq_one_iff.mp (show (m.row i).length = 1 by omega)
  obtain ⟨y, hy⟩ := List.length_eq_one_iff.mp (show (k.row i).length = 1 by omega)
  rw [hx, hy] at h ⊢
  simp only [rowChars_cons, rowChars_nil, List.append_nil] at h
  rw [cellChars_inj h]

/-- Nothing but `x` and `y`, side by side. -/
def sideBySide (p : Nat) (x y : Int) : Matrix (p + 2) := ((Matrix.zeros (p + 2)).set 0 0 x).set 0 1 y

theorem get_sideBySide {p : Nat} (x y : Int) (i j : Fin (p + 2)) :
    sideBySide p x y i j = if 0 = i ∧ 1 = j then y else if 0 = i ∧ 0 = j then x else 0 := by
  simp only [sideBySide, Matrix.get_set, Matrix.get_zeros]

theorem row_sideBySide_zero (p : Nat) (x y : Int) : (sideBySide p x y).row 0 = x :: y :: List.replicate p 0 := by
  have hrest : (List.finRange p).map (fun j => sideBySide p x y 0 j.succ.succ) = List.replicate p 0 := by
    simp [get_sideBySide, Fin.ext_iff, List.map_const']
  rw [Matrix.row_eq_map, List.finRange_succ, List.finRange_succ, ← hrest]
  simp [get_sideBySide]

theorem row_sideBySide_of_ne (x y : Int) {p : Nat} {i : Fin (p + 2)} (hi : i ≠ 0) :
    (sideBySide p x y).row i = List.replicate (p + 2) 0 := by
  have hzero : ∀ j, sideBySide p x y i j = 0 := by
    intro j
    simp [get_sideBySide, hi.symm]
  rw [Matrix.row_eq_map, funext hzero, List.map_const', List.length_finRange]

theorem table_sideBySide {p : Nat} {x' y' : Int} (h : cellChars x ++ cellChars y = cellChars x' ++ cellChars y') :
    table (sideBySide p x y) = table (sideBySide p x' y') := by
  refine table_eq_iff.mpr fun i => ?_
  by_cases hi : i = 0
  · simp only [hi, row_sideBySide_zero, rowChars_cons, ← List.append_assoc, h]
  · rw [row_sideBySide_of_ne x y hi, row_sideBySide_of_ne x' y' hi]

theorem not_readable {r : IntRange} (hn : 2 ≤ n) (hr : (110000 : Int) ∈ r) : ¬Readable r n := by
  intro hread
  obtain ⟨p, rfl⟩ := Nat.exists_eq_add_of_le' hn
  have hcells : cellChars 100001 ++ cellChars 10000 = cellChars 10000 ++ cellChars 110000 := by decide +kernel
  have hmem : ∀ x : Int, 0 ≤ x ∧ x ≤ 110000 → x ∈ r := by
    intro x hx
    rw [IntRange.mem_iff] at hr ⊢
    omega
  have hrange : ∀ x y : Int, 0 ≤ x ∧ x ≤ 110000 → 0 ≤ y ∧ y ≤ 110000 → ∀ i j, sideBySide p x y i j ∈ r := by
    intro x y hx hy
    refine Matrix.forall_set (hmem y hy) (Matrix.forall_set (hmem x hx) fun i j => ?_)
    rw [Matrix.get_zeros]
    exact r.zero_mem
  have heq := hread _ _ (hrange 100001 10000 (by decide) (by decide)) (hrange 10000 110000 (by decide) (by decide))
    (table_sideBySide hcells)
  have hrow := congrArg (·.row 0) heq
  simp [row_sideBySide_zero] at hrow

/-- Tables of two columns and more are readable exactly if 17 bits hold their numbers, and any table is
where all numbers of its matrix have room in their cells. -/
theorem table_readable (bits n : Nat) :
    (Readable (.ofBits bits) n ↔ n ≤ 1 ∨ bits ≤ 17) ∧
      ∀ m k : Matrix n, (∀ i j, Fits (m i j)) → table m = table k → m = k := by
  have htop : (IntRange.ofBits bits).top = 2 ^ (bits - 1) - 1 := rfl
  refine ⟨⟨fun h => ?_, ?_⟩, fun _ _ => eq_of_table_of_fit⟩
  · by_cases hsmall : n ≤ 1 ∨ bits ≤ 17
    · exact hsmall
    · have hpow : 2 ^ 17 ≤ 2 ^ (bits - 1) := Nat.pow_le_pow_right (by decide) (by omega)
      have hmem : (110000 : Int) ∈ IntRange.ofBits bits := by
        rw [IntRange.mem_iff, htop]
        omega
      exact absurd h (not_readable (by omega) hmem)
  · rintro (hn | hbits)
    · exact readable_of_order _ hn
    · have hpow : 2 ^ (bits - 1) ≤ 2 ^ 16 := Nat.pow_le_pow_right (by decide) (by omega)
      refine readable_of_digits fun x hx => ?_
      rw [IntRange.mem_iff, htop] at hx
      omega

/-- The first number takes a character more and the second a digit less. -/
theorem touching_readable : table (sideBySide 0 (-1234) 23456) ≠ table (sideBySide 0 (-12342) 3456) := by
  intro h
  have hread := (table_readable 16 2).1.mpr (Or.inr (by decide))
  have heq := hread _ _ (by decide) (by decide) h
  exact absurd heq (by decide)

/-- Both tables say 12345123456. -/
theorem runTogether_unreadable : ∃ m k : Matrix 2, (∀ i j, m i j ∈ IntRange.ofBits 32) ∧
    (∀ i j, k i j ∈ IntRange.ofBits 32) ∧ table m = table k ∧ m ≠ k := by
  refine ⟨sideBySide 0 12345 123456, sideBySide 0 123451 23456, by decide, by decide, ?_, by decide⟩
  exact table_sideBySide (by decide +kernel)

end MinCostFlow.Report
