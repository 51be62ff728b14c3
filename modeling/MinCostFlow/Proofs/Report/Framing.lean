/-
  MinCostFlow.Proofs.Report.Framing — how the pieces of a report are told apart.

  Nothing in a report is quoted and few pieces have a width of their own. A piece ends where
  something stands that it cannot hold: a numeral where no digit follows, a line at its line
  feed, and a section at the first line of another form. So a text that is made of pieces falls
  into these pieces and no others (`eq_of_ends`).

  Proved: numbers are told apart by their characters (`natural_inj`, `number_inj`), lists of
  naturals by theirs (`joined_inj`), and lists of lines by the text of the lines (`unlines_inj`).
-/

import MinCostFlow.Proofs.NetworkFile.Numerals
import MinCostFlow.Report.Summary
import MinCostFlow.Report.Table

namespace MinCostFlow.Report

variable {text a b separator : String} {texts lines lines' : List String} {c : Char} {k l d : Nat} {x y : Int}
  {ks : List Nat} {rest rest' : List Char}

/-- Two pieces that hold nothing that ends them are equal if they are the first pieces of one text, and
then so are their ends and what follows. -/
theorem eq_of_ends {α : Type} {p : α → Prop} {xs ys rest rest' : List α} {e f : α}
    (hxs : ∀ z ∈ xs, p z) (hys : ∀ z ∈ ys, p z) (he : ¬p e) (hf : ¬p f)
    (h : xs ++ e :: rest = ys ++ f :: rest') : xs = ys ∧ e = f ∧ rest = rest' := by
  induction xs generalizing ys with
  | nil =>
    cases ys with
    | nil => simpa using h
    | cons y ys =>
      obtain ⟨rfl, -⟩ := List.cons.inj h
      exact absurd (hys e List.mem_cons_self) he
  | cons x xs ih =>
    cases ys with
    | nil =>
      obtain ⟨rfl, -⟩ := List.cons.inj h
      exact absurd (hxs x List.mem_cons_self) hf
    | cons y ys =>
      obtain ⟨rfl, htail⟩ := List.cons.inj h
      obtain ⟨rfl, hrest⟩ := ih (List.forall_mem_cons.mp hxs).2 (List.forall_mem_cons.mp hys).2 htail
      exact ⟨rfl, hrest⟩

/-! ## Numbers -/

theorem isDigit_of_mem_natural (h : c ∈ k.repr.toList) : c.isDigit = true := (Decimal.numeral_toString k).2.1 c h

/-- The digits stand for one number only. -/
theorem natural_inj (h : k.repr.toList = l.repr.toList) : k = l := by
  have hk := (Decimal.numeral_toString k).2.2
  have hl := (Decimal.numeral_toString l).2.2
  rw [← hk, ← hl]
  exact congrArg (Nat.ofDigitChars 10 · 0) h

/-- A natural ends where no digit follows. -/
theorem natural_append_inj (hc : ¬c.isDigit = true) (h : k.repr.toList ++ c :: rest = l.repr.toList ++ c :: rest') :
    k = l ∧ rest = rest' := by
  obtain ⟨hdigits, -, hrest⟩ := eq_of_ends (fun _ => isDigit_of_mem_natural) (fun _ => isDigit_of_mem_natural) hc hc h
  exact ⟨natural_inj hdigits, hrest⟩

theorem number_of_nonneg (hx : 0 ≤ x) : x.repr.toList = x.natAbs.repr.toList := by
  obtain ⟨k, rfl⟩ := Int.eq_ofNat_of_zero_le hx
  rfl

theorem number_of_neg (hx : x < 0) : x.repr.toList = '-' :: x.natAbs.repr.toList := by
  obtain ⟨k, rfl⟩ := Int.eq_negSucc_of_lt_zero hx
  show ("-" ++ (k + 1).repr).toList = _
  rw [String.toList_append]
  rfl

/-- A character that numbers are written with. -/
def Numeric (c : Char) : Prop := c.isDigit = true ∨ c = '-'

instance (c : Char) : Decidable (Numeric c) := inferInstanceAs (Decidable (_ ∨ _))

theorem numeric_of_mem_number (h : c ∈ x.repr.toList) : Numeric c := by
  rcases Int.lt_or_le x 0 with hneg | hnonneg
  · rw [number_of_neg hneg] at h
    rcases List.mem_cons.mp h with rfl | h
    · exact Or.inr rfl
    · exact Or.inl (isDigit_of_mem_natural h)
  · rw [number_of_nonneg hnonneg] at h
    exact Or.inl (isDigit_of_mem_natural h)

theorem number_inj (h : x.repr.toList = y.repr.toList) : x = y := by
  let r : IntRange := ⟨max x.natAbs y.natAbs⟩
  have hx : x ∈ r := IntRange.mem_iff.mpr (by simp only [r]; omega)
  have hy : y ∈ r := IntRange.mem_iff.mpr (by simp only [r]; omega)
  have htext : toString x = toString y := String.toList_injective h
  exact (Decimal.writesValue_toString hx).unique (htext ▸ Decimal.writesValue_toString hy)

theorem number_append_inj (hc : ¬Numeric c) (h : x.repr.toList ++ c :: rest = y.repr.toList ++ c :: rest') :
    x = y ∧ rest = rest' := by
  obtain ⟨hchars, -, hrest⟩ := eq_of_ends (fun _ => numeric_of_mem_number) (fun _ => numeric_of_mem_number) hc hc h
  exact ⟨number_inj hchars, hrest⟩

/-! ## Lists of naturals -/

/-- The naturals between separators. -/
def joined (separator : String) (ks : List Nat) : List Char :=
  (String.intercalate separator (ks.map toString)).toList

@[simp] theorem joined_nil : joined separator [] = [] := by simp [joined]

@[simp] theorem joined_singleton : joined separator [k] = k.repr.toList := by simp [joined]

@[simp] theorem joined_cons_cons :
    joined separator (k :: l :: ks) = k.repr.toList ++ (separator.toList ++ joined separator (l :: ks)) := by
  simp [joined]

theorem joined_ne_nil : joined separator (k :: ks) ≠ [] := by
  cases ks <;> simp

theorem mem_joined (h : c ∈ joined separator ks) : c.isDigit = true ∨ c ∈ separator.toList := by
  induction ks with
  | nil => simp at h
  | cons k ks ih =>
    cases ks with
    | nil => exact Or.inl (isDigit_of_mem_natural (joined_singleton ▸ h))
    | cons l ks =>
      simp only [joined_cons_cons, List.mem_append] at h
      rcases h with h | h | h
      · exact Or.inl (isDigit_of_mem_natural h)
      · exact Or.inr h
      · exact ih h

theorem joined_singleton_ne (hseparator : separator.toList = c :: rest) (hc : ¬c.isDigit = true) :
    joined separator [d] ≠ joined separator (k :: l :: ks) := by
  intro h
  have hmem : c ∈ joined separator [d] := by simp [h, hseparator]
  exact hc (isDigit_of_mem_natural (joined_singleton ▸ hmem))

/-- A separator that does not begin with a digit ends the natural before it. -/
theorem joined_inj (hseparator : separator.toList = c :: rest) (hc : ¬c.isDigit = true) :
    ∀ {ks ls : List Nat}, joined separator ks = joined separator ls → ks = ls
  | [], [], _ => rfl
  | [], _ :: _, h => absurd h.symm joined_ne_nil
  | _ :: _, [], h => absurd h joined_ne_nil
  | [_], [_], h => congrArg ([·]) (natural_inj (by simpa only [joined_singleton] using h))
  | [_], _ :: _ :: _, h => absurd h (joined_singleton_ne hseparator hc)
  | _ :: _ :: _, [_], h => absurd h.symm (joined_singleton_ne hseparator hc)
  | _ :: _ :: _, _ :: _ :: _, h => by
    simp only [joined_cons_cons, hseparator, List.cons_append] at h
    obtain ⟨hfirst, h⟩ := natural_append_inj hc h
    rw [hfirst, joined_inj hseparator hc (List.append_cancel_left h)]

/-! ## Cells -/

/-- A cell adds nothing but blanks. -/
theorem mem_cell (hc : c ≠ ' ') : c ∈ (cell text).toList ↔ c ∈ text.toList := by
  simp [cell, Text.alignRight, List.mem_replicate, hc]

/-! ## Lines -/

def OneLine (text : String) : Prop := '\n' ∉ text.toList

instance (text : String) : Decidable (OneLine text) := inferInstanceAs (Decidable (_ ∉ _))

theorem OneLine.ne_feed (h : OneLine text) : ∀ c ∈ text.toList, c ≠ '\n' := by
  rintro _ hc rfl
  exact h hc

@[simp] theorem oneLine_append : OneLine (a ++ b) ↔ OneLine a ∧ OneLine b := by
  simp [OneLine]

@[simp] theorem oneLine_join : OneLine (String.join texts) ↔ ∀ text ∈ texts, OneLine text := by
  simp [OneLine]

@[simp] theorem oneLine_natural (k : Nat) : OneLine k.repr := by
  intro hfeed
  cases isDigit_of_mem_natural hfeed

@[simp] theorem oneLine_number (x : Int) : OneLine x.repr := by
  intro hfeed
  exact absurd (numeric_of_mem_number hfeed) (by decide)

theorem oneLine_intercalate (separator : String) (hseparator : OneLine separator) (ks : List Nat) :
    OneLine (String.intercalate separator (ks.map toString)) := by
  intro hfeed
  rcases mem_joined hfeed with hfeed | hfeed
  · cases hfeed
  · exact hseparator hfeed

theorem toList_unlines_cons : (unlines (text :: texts)).toList = text.toList ++ '\n' :: (unlines texts).toList := by
  simp [unlines]

theorem unlines_inj (hlines : ∀ line ∈ lines, OneLine line) (hlines' : ∀ line ∈ lines', OneLine line)
    (h : unlines lines = unlines lines') : lines = lines' := by
  induction lines generalizing lines' with
  | nil =>
    cases lines' with
    | nil => rfl
    | cons line' lines' =>
      have hnil := congrArg String.toList h
      rw [toList_unlines_cons] at hnil
      simp [unlines] at hnil
  | cons line lines ih =>
    have hlist := congrArg String.toList h
    rw [toList_unlines_cons] at hlist
    cases lines' with
    | nil => simp [unlines] at hlist
    | cons line' lines' =>
      obtain ⟨hline, hlines⟩ := List.forall_mem_cons.mp hlines
      obtain ⟨hline', hlines'⟩ := List.forall_mem_cons.mp hlines'
      rw [toList_unlines_cons] at hlist
      obtain ⟨hfirst, -, hrest⟩ := eq_of_ends hline.ne_feed hline'.ne_feed (by simp) (by simp) hlist
      rw [String.toList_injective hfirst, ih hlines hlines' (String.toList_injective hrest)]

end MinCostFlow.Report
