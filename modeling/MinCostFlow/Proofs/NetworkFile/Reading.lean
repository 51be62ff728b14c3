/-
  MinCostFlow.Proofs.NetworkFile.Reading — how reading goes from arc to arc.

  Reading takes four tokens at a time and adds each arc as soon as it is read. What it has not
  met among the first four tokens it meets in the rest, four positions further on
  (`ArcStops.shift`). Within an arc the tokens are tried in order (`first_or_next`), and the arc
  is added with the last one. So at whatever reading stops, nothing that could stop it comes
  earlier.

  Proved: arcs are read just when the tokens are written for arcs that can all be added, and
  then in order (`readArcs_eq_ok`); otherwise reading ends with what comes first of the faults
  and overflows that the grammar knows (`readArcs_eq_error`), and there are none where it
  succeeds (`ArcTokens.no_stop`).
-/

import MinCostFlow.Proofs.NetworkFile.Grammar
import MinCostFlow.Proofs.Reach.Basic

namespace MinCostFlow

open Decimal

/-! ## Arcs one after the other -/

/-- A network of `n` vertices takes the arc, and can store the opposite cost. -/
def Arc.Addable (r : IntRange) (n : Nat) (a : Arc) : Prop := a.Fits n ∧ a.cost ∈ r ∧ a.cost ≠ r.bottom

namespace Network

variable {r : IntRange} {n : Nat} {a : Arc} {arcs : List Arc}

def addArcs (r : IntRange) (g : Network n) (arcs : List Arc) : Except (Failure ArcError) (Network n) :=
  arcs.foldlM (fun g a => g.addArc r a.tail a.head a.capacity a.cost) g

/-- The network of `n` vertices to which the arcs have been added in order. -/
def ofArcs (r : IntRange) (n : Nat) (arcs : List Arc) : Except (Failure ArcError) (Network n) := do
  let g ← orFault (create n)
  g.addArcs r arcs

theorem neg_mem_iff {x : Int} (hx : x ∈ r) : -x ∈ r ↔ x ≠ r.bottom := by
  obtain ⟨hlow, hhigh⟩ := IntRange.mem_iff.mp hx
  rw [IntRange.mem_iff, IntRange.bottom]
  omega

/-- An arc is refused, or its opposite cost is out of range, or it is added. -/
theorem addArc_cases (g : Network n) (hcost : a.cost ∈ r) :
    (∃ e, Refusal n a e ∧ g.addArc r a.tail a.head a.capacity a.cost = .error (.error e)) ∨
    a.Fits n ∧ a.cost = r.bottom ∧ g.addArc r a.tail a.head a.capacity a.cost = .error (.fault .negationOverflow) ∨
    a.Fits n ∧ a.cost ≠ r.bottom ∧ ∃ g', g.addArc r a.tail a.head a.capacity a.cost = .ok g' := by
  by_cases ht : a.tail < n
  case neg =>
    refine Or.inl ⟨_, .tail (by omega), ?_⟩
    rw [addArc, vertex_eq_error.mpr ⟨by omega, rfl⟩]
    rfl
  have htail : (orError (vertex n a.tail) : Except (Failure ArcError) _) = .ok ⟨a.tail, ht⟩ :=
    orError_eq_ok.mpr (vertex_eq_ok.mpr rfl)
  by_cases hh : a.head < n
  case neg =>
    refine Or.inl ⟨_, .head ht (by omega), ?_⟩
    rw [addArc, bind_of_ok htail, vertex_eq_error.mpr ⟨by omega, rfl⟩]
    rfl
  have hhead : (orError (vertex n a.head) : Except (Failure ArcError) _) = .ok ⟨a.head, hh⟩ :=
    orError_eq_ok.mpr (vertex_eq_ok.mpr rfl)
  by_cases hc : 0 ≤ a.capacity
  case neg =>
    refine Or.inl ⟨_, .capacity ht hh (by omega), ?_⟩
    rw [addArc, bind_of_ok htail, bind_of_ok hhead, demand_eq_error.mpr ⟨hc, rfl⟩]
    rfl
  refine Or.inr ?_
  by_cases hk : a.cost = r.bottom
  · have hout : -a.cost ∉ r := fun h => (neg_mem_iff hcost).mp h hk
    refine Or.inl ⟨⟨ht, hh, hc⟩, hk, ?_⟩
    rw [addArc, bind_of_ok htail, bind_of_ok hhead, bind_of_ok ((demand_eq_ok (u := ())).mpr hc),
      IntRange.require_eq_error.mpr ⟨hout, rfl⟩]
    rfl
  · have hin : -a.cost ∈ r := (neg_mem_iff hcost).mpr hk
    exact Or.inr ⟨⟨ht, hh, hc⟩, hk, _, addArc_eq_ok.mpr ⟨⟨a.tail, ht⟩, ⟨a.head, hh⟩, rfl, rfl, hc, hin, rfl⟩⟩

theorem addArcs_ok (g : Network n) (h : ∀ a ∈ arcs, a.Addable r n) : ∃ g', g.addArcs r arcs = .ok g' := by
  induction arcs generalizing g with
  | nil => exact ⟨g, rfl⟩
  | cons a arcs ih =>
    obtain ⟨⟨hfits, hcost, hne⟩, hrest⟩ := List.forall_mem_cons.mp h
    rcases g.addArc_cases hcost with ⟨e, he, -⟩ | ⟨-, hbottom, -⟩ | ⟨-, -, g1, hadd⟩
    · exact absurd hfits he.not_fits
    · exact absurd hbottom hne
    · obtain ⟨g', hg'⟩ := ih g1 hrest
      exact ⟨g', bind_eq_ok.mpr ⟨g1, hadd, hg'⟩⟩

/-- The greatest number of vertices that a file may ask for is not too many for a matrix. -/
theorem create_of_le (hn : n ≤ NetworkFile.maxVertexCount) : create n = .ok (empty n) :=
  create_eq_ok.mpr ⟨(Nat.mul_le_mul hn hn).trans_lt (by decide), rfl⟩

theorem ofArcs_of_le (hn : n ≤ NetworkFile.maxVertexCount) : ofArcs r n arcs = (empty n).addArcs r arcs := by
  rw [ofArcs, bind_of_ok (orFault_eq_ok.mpr (create_of_le hn))]

theorem ofArcs_ok (hn : n ≤ NetworkFile.maxVertexCount) (h : ∀ a ∈ arcs, a.Addable r n) :
    ∃ g, ofArcs r n arcs = .ok g := by
  obtain ⟨g, hg⟩ := (empty n).addArcs_ok h
  exact ⟨g, (ofArcs_of_le hn).trans hg⟩

end Network

namespace NetworkFile

variable {r : IntRange} {n m i : Nat} {g g' : Network n} {ts rest : List Token} {t h c k : Token} {a : Arc}
  {arcs : List Arc} {e : ReadError} {f : Failure ReadError}

/-! ## What is read -/

theorem readArcs_eq_ok :
    readArcs r g ts = .ok g' ↔ ∃ arcs, ArcTokens r n ts arcs ∧ g.addArcs r arcs = .ok g' := by
  constructor
  · intro hread
    fun_induction readArcs r g ts with
    | case1 g =>
      obtain rfl := Except.ok.inj hread
      exact ⟨[], .nil, rfl⟩
    | case2 =>
      obtain ⟨_, -, hread⟩ := bind_eq_ok.mp hread
      cases hread
    | case3 =>
      simp only [bind_eq_ok] at hread
      obtain ⟨_, -, _, -, hread⟩ := hread
      cases hread
    | case4 =>
      simp only [bind_eq_ok] at hread
      obtain ⟨_, -, _, -, _, -, hread⟩ := hread
      cases hread
    | case5 g t h c k rest ih =>
      simp only [bind_eq_ok, readAs_eq_ok, mapError_eq_ok, index?_eq_some, value?_eq_some] at hread
      obtain ⟨tail, ht, head, hh, capacity, hc, cost, hk, g1, hadd, hread⟩ := hread
      obtain ⟨arcs, harcs, hall⟩ := ih g1 hread
      obtain ⟨u, v, rfl, rfl, hpos, -, -⟩ := Network.addArc_eq_ok.mp hadd
      have hquad : Quadruple r t h c k ⟨u, v, capacity, cost⟩ := ⟨ht, hh, hc, hk⟩
      exact ⟨_, .cons hquad ⟨u.isLt, v.isLt, hpos⟩ harcs, bind_eq_ok.mpr ⟨g1, hadd, hall⟩⟩
  · rintro ⟨arcs, harcs, hall⟩
    induction harcs generalizing g with
    | nil =>
      obtain rfl := Except.ok.inj hall
      rfl
    | cons hquad _ _ ih =>
      obtain ⟨g1, hadd, hall⟩ := bind_eq_ok.mp hall
      simp only [readArcs, bind_eq_ok, readAs_eq_ok, mapError_eq_ok, index?_eq_some, value?_eq_some]
      exact ⟨_, hquad.tail, _, hquad.head, _, hquad.capacity, _, hquad.cost, g1, hadd, ih hall⟩

/-! ## What stops the reading -/

/-- What is at a position, be it a fault of the file or an overflow. -/
def Stops (fault : Nat → ReadError → Prop) (overflow : Nat → Prop) (i : Nat) : Failure ReadError → Prop
  | .error e => fault i e
  | .fault f => overflow i ∧ f = .negationOverflow

def ArcStops (r : IntRange) (n : Nat) (ts : List Token) : Nat → Failure ReadError → Prop :=
  Stops (ArcFault r n ts) (ArcOverflow r n ts)

theorem ArcAt.shift {first : Token} :
    ArcAt r (t :: h :: c :: k :: rest) (i + 4) first a ↔ ArcAt r rest i first a := by
  constructor
  · rintro ⟨j, hi, hdrop, hquad⟩
    obtain ⟨j, rfl⟩ : ∃ j', j = j' + 1 := ⟨j - 1, by omega⟩
    exact ⟨j, by omega, hdrop, hquad⟩
  · rintro ⟨j, hi, hdrop, hquad⟩
    exact ⟨j + 1, by omega, hdrop, hquad⟩

/-- The four tokens of an arc make no difference to what is wrong behind them. -/
theorem ArcFault.shift : ArcFault r n (t :: h :: c :: k :: rest) (i + 4) e ↔ ArcFault r n rest i e := by
  have hplace : (i + 4) % 4 = i % 4 := Nat.add_mod_right i 4
  constructor
  · intro he
    cases he with
    | invalid ht hnot =>
      rw [hplace] at hnot ⊢
      exact .invalid ht hnot
    | truncated hi hwithin hfirst =>
      rw [hplace] at hwithin ⊢
      refine .truncated (Nat.add_right_cancel hi) hwithin ?_
      rwa [show 4 * ((i + 4) / 4) = 4 * (i / 4) + 4 by omega] at hfirst
    | refused ha hrefused => exact .refused (ArcAt.shift.mp ha) hrefused
  · intro he
    cases he with
    | invalid ht hnot =>
      rw [← hplace] at hnot ⊢
      exact .invalid ht hnot
    | truncated hi hwithin hfirst =>
      rw [← hplace] at hwithin ⊢
      refine .truncated (congrArg (· + 4) hi) hwithin ?_
      rwa [show 4 * ((i + 4) / 4) = 4 * (i / 4) + 4 by omega]
    | refused ha hrefused => exact .refused (ArcAt.shift.mpr ha) hrefused

theorem ArcStops.shift : ArcStops r n (t :: h :: c :: k :: rest) (i + 4) f ↔ ArcStops r n rest i f := by
  cases f with
  | error e => exact ArcFault.shift
  | fault f =>
    refine and_congr_left fun _ => ?_
    constructor
    · rintro ⟨ha, hfits, hbottom⟩
      exact ⟨ArcAt.shift.mp ha, hfits, hbottom⟩
    · rintro ⟨ha, hfits, hbottom⟩
      exact ⟨ArcAt.shift.mpr ha, hfits, hbottom⟩

/-! ## The first fault among the tokens of an arc -/

/-- The first `m` tokens are written as their fields. -/
def Accepted (r : IntRange) (ts : List Token) (m : Nat) : Prop :=
  ∀ i < m, ∀ t, ts[i]? = some t → (Field.ofPlace (i % 4)).Accepts r t.text

theorem accepted_zero (ts : List Token) : Accepted r ts 0 := fun _ hi => absurd hi (Nat.not_lt_zero _)

theorem Accepted.snoc (hacc : Accepted r ts m) (ht : ts[m]? = some t) (hnext : (Field.ofPlace (m % 4)).Accepts r t.text) :
    Accepted r ts (m + 1) := by
  intro i hi t' ht'
  rcases Nat.lt_succ_iff_lt_or_eq.mp hi with hlt | rfl
  · exact hacc i hlt t' ht'
  · obtain rfl := Option.some.inj (ht.symm.trans ht')
    exact hnext

/-- Nothing stops the reading within an arc before a token that is not well formed. -/
theorem Accepted.no_stop (hacc : Accepted r ts m) (hm : m ≤ 3) (hlen : m ≤ ts.length) (hi : i < m) :
    ¬ArcStops r n ts i f := by
  intro hs
  cases f with
  | error e =>
    cases hs with
    | invalid ht hnot => exact hnot (hacc i hi _ ht)
    | truncated hend => omega
    | refused ha =>
      have := ha.place
      omega
  | fault f =>
    obtain ⟨⟨ha, -, -⟩, -⟩ := hs
    have := ha.place
    omega

theorem readAs_eq_error {α : Type} {field : Field} {read : String → Option α} :
    t.readAs field read = .error f ↔ read t.text = none ∧ .error (.format (.invalid field t)) = f := expect_eq_error

/-- A token that is not well formed is the first thing to stop the reading, and behind one that is the
reading goes on. -/
theorem first_or_next {α β : Type} {read : String → Option α} {next : α → Except (Failure ReadError) β}
    (hacc : Accepted r ts m) (hm : m ≤ 3) (ht : ts[m]? = some t)
    (hform : (∃ x, read t.text = some x) ↔ (Field.ofPlace m).Accepts r t.text)
    (hread : (t.readAs (.ofPlace m) read >>= next) = .error f) :
    First (ArcStops r n ts) f ∨ ∃ x, read t.text = some x ∧ Accepted r ts (m + 1) ∧ next x = .error f := by
  have hplace : m % 4 = m := Nat.mod_eq_of_lt (by omega)
  rcases bind_eq_error.mp hread with hinvalid | ⟨x, hx, hnext⟩
  · obtain ⟨hnone, rfl⟩ := readAs_eq_error.mp hinvalid
    have hnot : ¬(Field.ofPlace m).Accepts r t.text := by simp [← hform, hnone]
    have hlen : m < ts.length := (List.getElem?_eq_some_iff.mp ht).1
    have hfault := ArcFault.invalid (n := n) ht (hplace.symm ▸ hnot)
    rw [hplace] at hfault
    exact Or.inl ⟨m, hfault, fun i hi f => hacc.no_stop hm hlen.le hi⟩
  · have hx := readAs_eq_ok.mp hx
    exact Or.inr ⟨x, hx, hacc.snoc ht (hplace.symm ▸ hform.mp ⟨x, hx⟩), hnext⟩

/-- The tokens are well formed but end within an arc. -/
theorem first_truncated (hacc : Accepted r (t :: rest) (rest.length + 1)) (hlen : rest.length < 3)
    (hread : (cutShort (.ofPlace (rest.length + 1)) t : Except (Failure ReadError) (Network n)) = .error f) :
    First (ArcStops r n (t :: rest)) f := by
  obtain rfl := Except.error.inj hread
  have hplace : (rest.length + 1) % 4 = rest.length + 1 := Nat.mod_eq_of_lt (by omega)
  have hfirst : (t :: rest)[4 * ((rest.length + 1) / 4)]? = some t := by
    rw [Nat.div_eq_of_lt (by omega)]
    rfl
  have hend : rest.length + 1 = (t :: rest).length := rfl
  have hfault := ArcFault.truncated (r := r) (n := n) hend (by omega) hfirst
  rw [hplace] at hfault
  exact ⟨rest.length + 1, hfault, fun i hi f => hacc.no_stop hlen le_rfl hi⟩

namespace Quadruple

theorem accepted (hquad : Quadruple r t h c k a) : Accepted r (t :: h :: c :: k :: rest) 3 :=
  (((accepted_zero _).snoc rfl ⟨_, hquad.tail⟩).snoc rfl ⟨_, hquad.head⟩).snoc rfl ⟨_, hquad.capacity⟩

theorem arcAt (hquad : Quadruple r t h c k a) : ArcAt r (t :: h :: c :: k :: rest) 3 t a := ⟨0, rfl, rfl, hquad⟩

/-- What stops the reading of an arc that is complete comes with its last token. -/
theorem first_last (hquad : Quadruple r t h c k a) (hstop : ArcStops r n (t :: h :: c :: k :: rest) 3 f) :
    First (ArcStops r n (t :: h :: c :: k :: rest)) f :=
  ⟨3, hstop, fun _ hi _ => hquad.accepted.no_stop le_rfl (by simp) hi⟩

/-- An arc that is added stops nothing. -/
theorem stops_later (hquad : Quadruple r t h c k a) (hfits : a.Fits n) (hcost : a.cost ≠ r.bottom)
    (hstop : ArcStops r n (t :: h :: c :: k :: rest) i f) : ∃ j, i = j + 4 ∧ ArcStops r n rest j f := by
  rcases Nat.lt_trichotomy i 3 with hlt | rfl | hgt
  · exact absurd hstop (hquad.accepted.no_stop le_rfl (by simp) hlt)
  · -- with its last token an arc could only be refused, or have the least cost
    exfalso
    cases f with
    | error e =>
      cases hstop with
      | invalid ht hnot => exact hnot (hquad.arcAt.accepts ht)
      | truncated hend => exact absurd hend (Nat.ne_of_lt hquad.arcAt.lt_length)
      | refused hb hrefused =>
        obtain ⟨-, rfl⟩ := hquad.arcAt.unique hb
        exact hrefused.not_fits hfits
    | fault f =>
      obtain ⟨⟨hb, -, hbottom⟩, -⟩ := hstop
      obtain ⟨-, rfl⟩ := hquad.arcAt.unique hb
      exact hcost hbottom
  · obtain ⟨j, rfl⟩ : ∃ j, i = j + 4 := ⟨i - 4, by omega⟩
    exact ⟨j, rfl, ArcStops.shift.mp hstop⟩

theorem first_later (hquad : Quadruple r t h c k a) (hfits : a.Fits n) (hcost : a.cost ≠ r.bottom)
    (hfirst : First (ArcStops r n rest) f) : First (ArcStops r n (t :: h :: c :: k :: rest)) f := by
  obtain ⟨i, hi, hbefore⟩ := hfirst
  refine ⟨i + 4, ArcStops.shift.mpr hi, fun j hj f' hstop => ?_⟩
  obtain ⟨j, rfl, hlater⟩ := hquad.stops_later hfits hcost hstop
  exact hbefore j (by omega) f' hlater

/-- Where the tokens of an arc are in order it is the network that decides about the arc. -/
theorem first_decided (hquad : Quadruple r t h c k a)
    (hrest : ∀ g' : Network n, readArcs r g' rest = .error f → First (ArcStops r n rest) f)
    (hread : ((g.addArc r a.tail a.head a.capacity a.cost).mapError (atLine t.line.number) >>=
      fun g' => readArcs r g' rest) = .error f) : First (ArcStops r n (t :: h :: c :: k :: rest)) f := by
  rcases g.addArc_cases hquad.cost.1 with ⟨e, hrefused, hadd⟩ | ⟨hfits, hbottom, hadd⟩ | ⟨hfits, hne, g', hadd⟩
  · rw [hadd] at hread
    obtain rfl := Except.error.inj hread
    exact hquad.first_last (ArcFault.refused hquad.arcAt hrefused)
  · rw [hadd] at hread
    obtain rfl := Except.error.inj hread
    exact hquad.first_last ⟨⟨hquad.arcAt, hfits, hbottom⟩, rfl⟩
  · rw [hadd] at hread
    exact hquad.first_later hfits hne (hrest g' hread)

end Quadruple

theorem readArcs_eq_error (hread : readArcs r g ts = .error f) : First (ArcStops r n ts) f := by
  have hindex : ∀ t : Token, (∃ v, index? t.text = some v) ↔ ∃ v, WritesIndex t.text v :=
    fun t => exists_congr fun v => index?_eq_some
  have hvalue : ∀ t : Token, (∃ x, value? r t.text = some x) ↔ ∃ x, WritesValue r t.text x :=
    fun t => exists_congr fun x => value?_eq_some
  fun_induction readArcs r g ts with
  | case1 => cases hread
  | case2 g t =>
    have hacc := accepted_zero (r := r) [t]
    rcases first_or_next (n := n) hacc (by decide) rfl (hindex t) hread with hfirst | ⟨_, -, hacc, hread⟩
    · exact hfirst
    exact first_truncated hacc (by simp) hread
  | case3 g t h =>
    have hacc := accepted_zero (r := r) [t, h]
    rcases first_or_next (n := n) hacc (by decide) rfl (hindex t) hread with hfirst | ⟨_, -, hacc, hread⟩
    · exact hfirst
    rcases first_or_next (n := n) hacc (by decide) rfl (hindex h) hread with hfirst | ⟨_, -, hacc, hread⟩
    · exact hfirst
    exact first_truncated hacc (by simp) hread
  | case4 g t h c =>
    have hacc := accepted_zero (r := r) [t, h, c]
    rcases first_or_next (n := n) hacc (by decide) rfl (hindex t) hread with hfirst | ⟨_, -, hacc, hread⟩
    · exact hfirst
    rcases first_or_next (n := n) hacc (by decide) rfl (hindex h) hread with hfirst | ⟨_, -, hacc, hread⟩
    · exact hfirst
    rcases first_or_next (n := n) hacc (by decide) rfl (hvalue c) hread with hfirst | ⟨_, -, hacc, hread⟩
    · exact hfirst
    exact first_truncated hacc (by simp) hread
  | case5 g t h c k rest ih =>
    have hacc := accepted_zero (r := r) (t :: h :: c :: k :: rest)
    rcases first_or_next (n := n) hacc (by decide) rfl (hindex t) hread with hfirst | ⟨tail, ht, hacc, hread⟩
    · exact hfirst
    rcases first_or_next (n := n) hacc (by decide) rfl (hindex h) hread with hfirst | ⟨head, hh, hacc, hread⟩
    · exact hfirst
    rcases first_or_next (n := n) hacc (by decide) rfl (hvalue c) hread with hfirst | ⟨capacity, hc, hacc, hread⟩
    · exact hfirst
    rcases first_or_next (n := n) hacc (by decide) rfl (hvalue k) hread with hfirst | ⟨cost, hk, -, hread⟩
    · exact hfirst
    have hquad : Quadruple r t h c k ⟨tail, head, capacity, cost⟩ :=
      ⟨index?_eq_some.mp ht, index?_eq_some.mp hh, value?_eq_some.mp hc, value?_eq_some.mp hk⟩
    exact hquad.first_decided ih hread

theorem not_arcStops_nil : ¬ArcStops r n [] i f := by
  intro hstop
  cases f with
  | error e =>
    cases hstop with
    | invalid ht => cases ht
    | truncated hend hwithin => exact hwithin (hend ▸ rfl)
    | refused ha => exact Nat.not_lt_zero _ ha.lt_length
  | fault f =>
    obtain ⟨⟨ha, -, -⟩, -⟩ := hstop
    exact Nat.not_lt_zero _ ha.lt_length

/-- There is nothing to stop at in tokens that have been read. -/
theorem ArcTokens.no_stop (harcs : ArcTokens r n ts arcs) (hall : g.addArcs r arcs = .ok g') : ¬ArcStops r n ts i f := by
  induction harcs generalizing g i with
  | nil => exact not_arcStops_nil
  | cons hquad hfits _ ih =>
    obtain ⟨g1, hadd, hall⟩ := bind_eq_ok.mp hall
    obtain ⟨-, -, -, -, -, hneg, -⟩ := Network.addArc_eq_ok.mp hadd
    intro hstop
    obtain ⟨j, rfl, hlater⟩ := hquad.stops_later hfits ((Network.neg_mem_iff hquad.cost.1).mp hneg) hstop
    exact ih hall hlater

end NetworkFile

end MinCostFlow
