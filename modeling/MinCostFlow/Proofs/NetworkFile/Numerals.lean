/-
  MinCostFlow.Proofs.NetworkFile.Numerals — how numbers are written.

  A numeral is one or more of the digits 0 to 9, and stands for a natural number in base ten.
  An index is a numeral, or one behind a plus sign, that stands for a number of 64 bits. A
  value is a numeral behind any sign or none that stands for a number of the range.

  Proved: indices and values are what is read as such (`index?_eq_some`, `value?_eq_some`),
  and printing a number that can be stored writes it (`writesIndex_toString`,
  `writesValue_toString`).
-/

import MinCostFlow.Decimal
import MinCostFlow.Text.Blank

namespace MinCostFlow.Decimal

variable {r : IntRange} {digits chars : List Char} {text : String} {v k : Nat} {x y : Int}

/-- The digits are written for `k`. -/
def Numeral (digits : List Char) (k : Nat) : Prop :=
  digits ≠ [] ∧ (∀ c ∈ digits, c.isDigit = true) ∧ Nat.ofDigitChars 10 digits 0 = k

/-- The text is written for `v`, a vertex or a number of vertices. -/
def WritesIndex (text : String) (v : Nat) : Prop :=
  v < indexLimit ∧ ∃ digits, Numeral digits v ∧ (text.toList = digits ∨ text.toList = '+' :: digits)

/-- The text is written for `x`, a capacity or a cost. -/
def WritesValue (r : IntRange) (text : String) (x : Int) : Prop :=
  x ∈ r ∧ ∃ digits k, Numeral digits k ∧
    ((text.toList = digits ∨ text.toList = '+' :: digits) ∧ x = k ∨ text.toList = '-' :: digits ∧ x = -k)

/-! ## Reading -/

theorem natural?_eq_some : natural? digits = some k ↔ Numeral digits k := by
  simp [natural?, Numeral, and_assoc]

theorem not_numeral_sign {sign : Char} (h : sign.isDigit = false) : ¬Numeral (sign :: digits) k := by
  intro hn
  cases h.symm.trans (hn.2.1 sign List.mem_cons_self)

theorem unsigned?_eq_some :
    unsigned? chars = some k ↔ ∃ digits, Numeral digits k ∧ (chars = digits ∨ chars = '+' :: digits) := by
  unfold unsigned?
  split
  · rename_i rest
    rw [natural?_eq_some]
    constructor
    · exact fun h => ⟨rest, h, Or.inr rfl⟩
    · rintro ⟨digits, h, rfl | he⟩
      · exact absurd h (not_numeral_sign (by decide))
      · obtain ⟨-, rfl⟩ := List.cons.inj he
        exact h
  · rename_i hplus
    rw [natural?_eq_some]
    constructor
    · exact fun h => ⟨_, h, Or.inl rfl⟩
    · rintro ⟨digits, h, rfl | rfl⟩
      · exact h
      · exact absurd rfl (hplus digits)

theorem signed?_minus (rest : List Char) : signed? ('-' :: rest) = some x ↔ ∃ k, Numeral rest k ∧ x = -k := by
  simp only [← natural?_eq_some, signed?]
  cases natural? rest <;> simp [eq_comm]

theorem signed?_of_ne_minus (h : ∀ rest, chars ≠ '-' :: rest) : signed? chars = (unsigned? chars).map Int.ofNat := by
  unfold signed?
  split
  · rfl
  · exact absurd rfl (h _)
  · rename_i hplus _
    unfold unsigned?
    split
    · exact absurd rfl (hplus _)
    · rfl

theorem signed?_eq_some : signed? chars = some x ↔ ∃ digits k, Numeral digits k ∧
    ((chars = digits ∨ chars = '+' :: digits) ∧ x = k ∨ chars = '-' :: digits ∧ x = -k) := by
  by_cases hminus : ∃ rest, chars = '-' :: rest
  · obtain ⟨rest, rfl⟩ := hminus
    rw [signed?_minus]
    constructor
    · rintro ⟨k, h, hx⟩
      exact ⟨rest, k, h, Or.inr ⟨rfl, hx⟩⟩
    · rintro ⟨digits, k, h, ⟨rfl | he, -⟩ | ⟨he, hx⟩⟩
      · exact absurd h (not_numeral_sign (by decide))
      · cases he
      · obtain ⟨-, rfl⟩ := List.cons.inj he
        exact ⟨k, h, hx⟩
  · have hne : ∀ rest, chars ≠ '-' :: rest := fun rest h => hminus ⟨rest, h⟩
    rw [signed?_of_ne_minus hne, Option.map_eq_some_iff]
    simp only [unsigned?_eq_some]
    constructor
    · rintro ⟨k, ⟨digits, h, hchars⟩, rfl⟩
      exact ⟨digits, k, h, Or.inl ⟨hchars, rfl⟩⟩
    · rintro ⟨digits, k, h, ⟨hchars, rfl⟩ | ⟨he, -⟩⟩
      · exact ⟨k, ⟨digits, h, hchars⟩, rfl⟩
      · exact absurd he (hne digits)

theorem index?_eq_some : index? text = some v ↔ WritesIndex text v := by
  rw [index?, Option.filter_eq_some_iff, unsigned?_eq_some, decide_eq_true_eq, and_comm]
  rfl

theorem value?_eq_some : value? r text = some x ↔ WritesValue r text x := by
  rw [value?, Option.filter_eq_some_iff, signed?_eq_some, decide_eq_true_eq, and_comm]
  rfl

theorem index?_eq_none : index? text = none ↔ ¬∃ v, WritesIndex text v := by
  simp only [Option.eq_none_iff_forall_ne_some, ne_eq, index?_eq_some, not_exists]

theorem WritesIndex.unique {w : Nat} (h : WritesIndex text v) (h' : WritesIndex text w) : v = w :=
  Option.some.inj ((index?_eq_some.mpr h).symm.trans (index?_eq_some.mpr h'))

theorem WritesValue.unique (h : WritesValue r text x) (h' : WritesValue r text y) : x = y :=
  Option.some.inj ((value?_eq_some.mpr h).symm.trans (value?_eq_some.mpr h'))

/-! ## Printing -/

theorem numeral_toString (k : Nat) : Numeral (toString k).toList k := by
  rw [Nat.toString_eq_ofList_toDigits, String.toList_ofList]
  exact ⟨Nat.toDigits_ne_nil, fun c hc => Nat.isDigit_of_mem_toDigits (by decide) (by decide) hc,
    Nat.ofDigitChars_ten_toDigits⟩

theorem writesIndex_toString (hv : v < indexLimit) : WritesIndex (toString v) v :=
  ⟨hv, _, numeral_toString v, Or.inl rfl⟩

theorem writesValue_toString (hx : x ∈ r) : WritesValue r (toString x) x := by
  refine ⟨hx, ?_⟩
  cases x with
  | ofNat k => exact ⟨_, k, numeral_toString k, Or.inl ⟨Or.inl rfl, rfl⟩⟩
  | negSucc k =>
    refine ⟨_, k + 1, numeral_toString (k + 1), Or.inr ⟨?_, Int.negSucc_eq k⟩⟩
    show ("-" ++ toString (k + 1)).toList = _
    rw [String.toList_append]
    rfl

/-! ## No blanks -/

theorem not_isBlank_of_isDigit {c : Char} (h : c.isDigit = true) : Text.isBlank c = false := by
  simp only [Char.isDigit, Bool.and_eq_true, decide_eq_true_eq] at h
  have hlow : 48 ≤ c.toNat := h.1
  have hhigh : c.toNat ≤ 57 := h.2
  simp only [Text.isBlank, Bool.or_eq_false_iff, Bool.and_eq_false_iff, beq_eq_false_iff_ne, decide_eq_false_iff_not]
  omega

theorem WritesIndex.isWord (h : WritesIndex text v) :
    text.toList ≠ [] ∧ ∀ c ∈ text.toList, Text.isBlank c = false := by
  obtain ⟨-, digits, ⟨hne, hdigits, -⟩, htext⟩ := h
  have hblank : ∀ c ∈ digits, Text.isBlank c = false := fun c hc => not_isBlank_of_isDigit (hdigits c hc)
  rcases htext with htext | htext
  · rw [htext]
    exact ⟨hne, hblank⟩
  · rw [htext]
    exact ⟨List.cons_ne_nil _ _, List.forall_mem_cons.mpr ⟨rfl, hblank⟩⟩

theorem WritesValue.isWord (h : WritesValue r text x) :
    text.toList ≠ [] ∧ ∀ c ∈ text.toList, Text.isBlank c = false := by
  obtain ⟨-, digits, _, ⟨hne, hdigits, -⟩, htext⟩ := h
  have hblank : ∀ c ∈ digits, Text.isBlank c = false := fun c hc => not_isBlank_of_isDigit (hdigits c hc)
  rcases htext with ⟨htext | htext, -⟩ | ⟨htext, -⟩
  · rw [htext]
    exact ⟨hne, hblank⟩
  · rw [htext]
    exact ⟨List.cons_ne_nil _ _, List.forall_mem_cons.mpr ⟨rfl, hblank⟩⟩
  · rw [htext]
    exact ⟨List.cons_ne_nil _ _, List.forall_mem_cons.mpr ⟨rfl, hblank⟩⟩

end MinCostFlow.Decimal
