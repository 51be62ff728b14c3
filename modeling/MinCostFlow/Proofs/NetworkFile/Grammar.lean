/-
  MinCostFlow.Proofs.NetworkFile.Grammar — which tokens are a network, and what is wrong with
  any others.

  A network is the number of its vertices, and four tokens for each of its arcs (`Describes`).
  Faults are found by position, with no regard to how tokens are read (`FaultAt`): one has a
  place, and what it is can be seen from the token there and the three before it. A token that
  is not written as its field is a fault at its own place, tokens that end within an arc are
  one behind the last token, and an arc that the network does not take is one at its last
  token. There is at most one fault at a place (`FaultAt.unique`), so what the first fault is
  does not depend on anyone's order of looking.

  An arc of the least cost of the range is in order as far as the grammar goes. That its
  opposite cost cannot be stored stops the reading all the same (`OverflowAt`).
-/

import MinCostFlow.NetworkFile.Reader
import MinCostFlow.Proofs.NetworkFile.Numerals

namespace MinCostFlow

open Decimal

/-- An arc as a caller adds it. -/
structure Arc where
  tail : Nat
  head : Nat
  capacity : Int
  cost : Int
  deriving DecidableEq, Repr

/-- A network of `n` vertices takes such an arc, if it can store the opposite cost too. -/
def Arc.Fits (n : Nat) (a : Arc) : Prop := a.tail < n ∧ a.head < n ∧ 0 ≤ a.capacity

/-- What a network of `n` vertices says against an arc. -/
inductive Refusal (n : Nat) (a : Arc) : ArcError → Prop
  | tail : n ≤ a.tail → Refusal n a (.outOfRange a.tail n)
  | head : a.tail < n → n ≤ a.head → Refusal n a (.outOfRange a.head n)
  | capacity : a.tail < n → a.head < n → a.capacity < 0 → Refusal n a (.negativeCapacity a.tail a.head)

section

variable {n : Nat} {a : Arc} {e : ArcError}

theorem Refusal.not_fits (he : Refusal n a e) : ¬a.Fits n := by
  rintro ⟨htail, hhead, hcapacity⟩
  cases he <;> omega

theorem Refusal.unique {e' : ArcError} (he : Refusal n a e) (he' : Refusal n a e') : e = e' := by
  cases he with
  | tail =>
    cases he' with
    | tail => rfl
    | head => omega
    | capacity => omega
  | head =>
    cases he' with
    | tail => omega
    | head => rfl
    | capacity => omega
  | capacity =>
    cases he' with
    | tail => omega
    | head => omega
    | capacity => rfl

end

namespace NetworkFile

variable {r : IntRange} {n i : Nat} {ts : List Token} {t h c k : Token} {a b : Arc} {e d : ReadError}

/-! ## Tokens of a network -/

/-- Four tokens that are written for an arc. -/
structure Quadruple (r : IntRange) (t h c k : Token) (a : Arc) : Prop where
  tail : WritesIndex t.text a.tail
  head : WritesIndex h.text a.head
  capacity : WritesValue r c.text a.capacity
  cost : WritesValue r k.text a.cost

/-- The tokens are written for these arcs, which a network of `n` vertices takes. -/
inductive ArcTokens (r : IntRange) (n : Nat) : List Token → List Arc → Prop
  | nil : ArcTokens r n [] []
  | cons {t h c k : Token} {rest : List Token} {a : Arc} {arcs : List Arc} : Quadruple r t h c k a → a.Fits n →
      ArcTokens r n rest arcs → ArcTokens r n (t :: h :: c :: k :: rest) (a :: arcs)

/-- The tokens are written for `n` vertices and these arcs. -/
inductive Describes (r : IntRange) : List Token → Nat → List Arc → Prop
  | intro {t : Token} {rest : List Token} {n : Nat} {arcs : List Arc} : WritesIndex t.text n → n ≤ maxVertexCount →
      ArcTokens r n rest arcs → Describes r (t :: rest) n arcs

/-! ## Faults by position -/

/-- The fields of an arc in the order of its tokens. -/
def Field.ofPlace : Nat → Field
  | 0 => .tail
  | 1 => .head
  | 2 => .capacity
  | _ => .cost

/-- The text is written as the field asks. -/
def Field.Accepts (r : IntRange) (text : String) : Field → Prop
  | .vertexCount | .tail | .head => ∃ v, WritesIndex text v
  | .capacity | .cost => ∃ x, WritesValue r text x

/-- The tokens of the arc `a` start with `first` and end at position `i`. -/
inductive ArcAt (r : IntRange) (ts : List Token) (i : Nat) (first : Token) (a : Arc) : Prop
  | intro (j : Nat) {h c k : Token} {rest : List Token} : i = 4 * j + 3 → ts.drop (4 * j) = first :: h :: c :: k :: rest →
      Quadruple r first h c k a → ArcAt r ts i first a

/-- What is wrong at a position of the tokens of arcs, counted from 0. -/
inductive ArcFault (r : IntRange) (n : Nat) (ts : List Token) : Nat → ReadError → Prop
  | invalid {i : Nat} {t : Token} : ts[i]? = some t → ¬(Field.ofPlace (i % 4)).Accepts r t.text →
      ArcFault r n ts i (.format (.invalid (.ofPlace (i % 4)) t))
  /-- The tokens end within an arc. The error has the line on which the arc starts. -/
  | truncated {i : Nat} {first : Token} : i = ts.length → i % 4 ≠ 0 → ts[4 * (i / 4)]? = some first →
      ArcFault r n ts i (.format (.truncated (.ofPlace (i % 4)) first.line))
  /-- The network does not take an arc. The error has the line on which the arc starts. -/
  | refused {i : Nat} {first : Token} {a : Arc} {e : ArcError} : ArcAt r ts i first a → Refusal n a e →
      ArcFault r n ts i (.arc first.line.number e)

/-- What is wrong at a position of the tokens of a file, counted from 0. -/
inductive FaultAt (r : IntRange) : List Token → Nat → ReadError → Prop
  | missing : FaultAt r [] 0 (.format .missingVertexCount)
  | invalid {t : Token} {rest : List Token} : ¬Field.vertexCount.Accepts r t.text →
      FaultAt r (t :: rest) 0 (.format (.invalid .vertexCount t))
  | tooMany {t : Token} {rest : List Token} {n : Nat} : WritesIndex t.text n → maxVertexCount < n →
      FaultAt r (t :: rest) 0 (.format (.tooManyVertices n t.line))
  | arc {t : Token} {rest : List Token} {n i : Nat} {e : ReadError} : WritesIndex t.text n → ArcFault r n rest i e →
      FaultAt r (t :: rest) (i + 1) e

/-- An arc that the grammar allows ends at this position of the tokens of arcs, and has the least cost of
the range. -/
inductive ArcOverflow (r : IntRange) (n : Nat) (ts : List Token) (i : Nat) : Prop
  | intro {first : Token} {a : Arc} : ArcAt r ts i first a → a.Fits n → a.cost = r.bottom → ArcOverflow r n ts i

/-- The same, for a position of the tokens of a file. -/
inductive OverflowAt (r : IntRange) : List Token → Nat → Prop
  | arc {t : Token} {rest : List Token} {n i : Nat} : WritesIndex t.text n → ArcOverflow r n rest i →
      OverflowAt r (t :: rest) (i + 1)

/-- `x` is at some position, and nothing is at any before it. -/
def First {α : Type} (at? : Nat → α → Prop) (x : α) : Prop := ∃ i, at? i x ∧ ∀ j < i, ∀ y, ¬at? j y

theorem First.unique {α : Type} {at? : Nat → α → Prop} (hat : ∀ i x y, at? i x → at? i y → x = y) {x y : α}
    (hx : First at? x) (hy : First at? y) : x = y := by
  obtain ⟨i, hi, hfirst⟩ := hx
  obtain ⟨j, hj, hfirst'⟩ := hy
  rcases Nat.lt_trichotomy i j with hlt | rfl | hlt
  · exact absurd hi (hfirst' i hlt x)
  · exact hat i x y hi hj
  · exact absurd hj (hfirst j hlt y)

/-! ## One fault at a place -/

theorem Quadruple.unique (ha : Quadruple r t h c k a) (hb : Quadruple r t h c k b) : a = b := by
  cases a
  cases b
  simp only [Arc.mk.injEq]
  exact ⟨ha.tail.unique hb.tail, ha.head.unique hb.head, ha.capacity.unique hb.capacity, ha.cost.unique hb.cost⟩

namespace ArcAt

variable {first : Token}

theorem place (ha : ArcAt r ts i first a) : i % 4 = 3 := by
  obtain ⟨j, hi, -, -⟩ := ha
  omega

theorem lt_length (ha : ArcAt r ts i first a) : i < ts.length := by
  obtain ⟨j, hi, hdrop, -⟩ := ha
  have hlength := congrArg List.length hdrop
  simp only [List.length_drop, List.length_cons] at hlength
  omega

/-- An arc ends with a cost. -/
theorem accepts (ha : ArcAt r ts i first a) (ht : ts[i]? = some t) : (Field.ofPlace (i % 4)).Accepts r t.text := by
  rw [ha.place]
  obtain ⟨j, rfl, hdrop, hquad⟩ := ha
  rw [← List.getElem?_drop, hdrop] at ht
  obtain rfl := Option.some.inj ht
  exact ⟨a.cost, hquad.cost⟩

theorem unique {first' : Token} (ha : ArcAt r ts i first a) (hb : ArcAt r ts i first' b) : first = first' ∧ a = b := by
  obtain ⟨j, hi, hdrop, hquad⟩ := ha
  obtain ⟨j', hi', hdrop', hquad'⟩ := hb
  obtain rfl : j = j' := by omega
  simp only [hdrop, List.cons.injEq] at hdrop'
  obtain ⟨rfl, rfl, rfl, rfl, -⟩ := hdrop'
  exact ⟨rfl, hquad.unique hquad'⟩

end ArcAt

theorem ArcFault.unique (he : ArcFault r n ts i e) (hd : ArcFault r n ts i d) : e = d := by
  cases he with
  | invalid ht hnot =>
    cases hd with
    | invalid ht' =>
      obtain rfl := Option.some.inj (ht.symm.trans ht')
      rfl
    | truncated hi => simp [hi] at ht
    | refused ha => exact absurd (ha.accepts ht) hnot
  | truncated hi _ hfirst =>
    cases hd with
    | invalid ht => simp [hi] at ht
    | truncated _ _ hfirst' =>
      obtain rfl := Option.some.inj (hfirst.symm.trans hfirst')
      rfl
    | refused ha => exact absurd hi (Nat.ne_of_lt ha.lt_length)
  | refused ha hrefused =>
    cases hd with
    | invalid ht hnot => exact absurd (ha.accepts ht) hnot
    | truncated hi => exact absurd hi (Nat.ne_of_lt ha.lt_length)
    | refused hb hrefused' =>
      obtain ⟨rfl, rfl⟩ := ha.unique hb
      rw [hrefused.unique hrefused']

theorem ArcOverflow.no_fault (ho : ArcOverflow r n ts i) : ¬ArcFault r n ts i e := by
  obtain ⟨ha, hfits, -⟩ := ho
  intro he
  cases he with
  | invalid ht hnot => exact hnot (ha.accepts ht)
  | truncated hi => exact absurd hi (Nat.ne_of_lt ha.lt_length)
  | refused hb hrefused =>
    obtain ⟨-, rfl⟩ := ha.unique hb
    exact hrefused.not_fits hfits

theorem OverflowAt.no_fault (ho : OverflowAt r ts i) : ¬FaultAt r ts i e := by
  intro he
  cases ho with
  | arc hn ho =>
    cases he with
    | arc hm he =>
      obtain rfl := hn.unique hm
      exact ho.no_fault he

theorem FaultAt.unique (he : FaultAt r ts i e) (hd : FaultAt r ts i d) : e = d := by
  cases he with
  | missing =>
    cases hd
    rfl
  | invalid hnot =>
    cases hd with
    | invalid => rfl
    | tooMany hn => exact absurd ⟨_, hn⟩ hnot
  | tooMany hn =>
    cases hd with
    | invalid hnot => exact absurd ⟨_, hn⟩ hnot
    | tooMany hm => rw [hn.unique hm]
  | arc hn he =>
    cases hd with
    | arc hm hd =>
      obtain rfl := hn.unique hm
      exact he.unique hd

end NetworkFile

end MinCostFlow
