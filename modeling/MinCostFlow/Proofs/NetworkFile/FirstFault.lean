/-
  MinCostFlow.Proofs.NetworkFile.FirstFault — a file is read as the grammar says, or refused for
  its first fault.

  The number of vertices is one token in front of those of the arcs. Where it is in order, what
  stops the reading of the arcs stops that of the file, one position further on
  (`FileStops.later`).

  Proved: the tokens are those of the text as a whole; what the grammar allows is read, as the
  network to which its arcs are added in order; and what it does not allow is refused for the
  one fault that comes first (`read_first_fault`). This leaves out texts with the least number
  of the range for a cost. Reading ends with a fault just where an arc of that cost comes before
  anything that is wrong with the file (`read_fault_iff`), and there are such files
  (`read_opposite_cost`).
-/

import MinCostFlow.Proofs.NetworkFile.Reading
import MinCostFlow.Proofs.NetworkFile.Words

namespace MinCostFlow

open Decimal

namespace NetworkFile

variable {r : IntRange} {n i : Nat} {g : Network n} {arcs : List Arc} {ts rest : List Token} {t : Token}
  {f : Failure ReadError} {text : String}

/-! ## The whole file -/

def FileStops (r : IntRange) (ts : List Token) : Nat → Failure ReadError → Prop := Stops (FaultAt r ts) (OverflowAt r ts)

/-- The arcs of a file start at its second token. -/
theorem FileStops.later (hn : WritesIndex t.text n) : FileStops r (t :: rest) (i + 1) f ↔ ArcStops r n rest i f := by
  cases f with
  | error e =>
    constructor
    · intro he
      cases he with
      | arc hm he => exact hn.unique hm ▸ he
    · exact fun he => FaultAt.arc hn he
  | fault f =>
    refine and_congr_left fun _ => ?_
    constructor
    · intro ho
      cases ho with
      | arc hm ho => exact hn.unique hm ▸ ho
    · exact fun ho => OverflowAt.arc hn ho

theorem FileStops.not_first (hn : WritesIndex t.text n) (hmax : n ≤ maxVertexCount) : ¬FileStops r (t :: rest) 0 f := by
  intro hstop
  cases f with
  | error e =>
    cases hstop with
    | invalid hnot => exact hnot ⟨n, hn⟩
    | tooMany hm hlt => exact absurd (hn.unique hm ▸ hmax) hlt.not_ge
  | fault f => cases hstop.1

theorem Describes.le (h : Describes r ts n arcs) : n ≤ maxVertexCount := by
  cases h with
  | intro _ hmax => exact hmax

theorem Describes.no_stop (h : Describes r ts n arcs) (hall : Network.ofArcs r n arcs = .ok g) : ¬FileStops r ts i f := by
  rw [Network.ofArcs_of_le h.le] at hall
  cases h with
  | intro hn hmax harcs =>
    cases i with
    | zero => exact FileStops.not_first hn hmax
    | succ i => exact fun hstop => harcs.no_stop hall ((FileStops.later hn).mp hstop)

theorem read_eq_ok_iff : read r text = .ok ⟨n, g⟩ ↔
    ∃ arcs, Describes r (tokens text) n arcs ∧ Network.ofArcs r n arcs = .ok g := by
  unfold read
  cases tokens text with
  | nil =>
    constructor
    · intro h
      cases h
    · rintro ⟨_, h, -⟩
      cases h
  | cons t rest =>
    simp only [bind_eq_ok, readAs_eq_ok, demand_eq_ok, index?_eq_some, pure_eq_ok]
    constructor
    · rintro ⟨m, hm, _, hmax, g', hread, heq⟩
      cases heq
      obtain ⟨arcs, harcs, hall⟩ := readArcs_eq_ok.mp hread
      exact ⟨arcs, .intro hm hmax harcs, (Network.ofArcs_of_le hmax).trans hall⟩
    · rintro ⟨arcs, hdescribes, hall⟩
      cases hdescribes with
      | intro hm hmax harcs =>
        rw [Network.ofArcs_of_le hmax] at hall
        exact ⟨n, hm, (), hmax, g, readArcs_eq_ok.mpr ⟨arcs, harcs, hall⟩, rfl⟩

theorem read_eq_error (hread : read r text = .error f) : First (FileStops r (tokens text)) f := by
  unfold read at hread
  split at hread
  · rename_i htokens
    obtain rfl := Except.error.inj hread
    rw [htokens]
    exact ⟨0, FaultAt.missing, fun _ hj => absurd hj (Nat.not_lt_zero _)⟩
  · rename_i t rest htokens
    rw [htokens]
    rcases bind_eq_error.mp hread with hread | ⟨m, hm, hread⟩
    · obtain ⟨hnone, rfl⟩ := readAs_eq_error.mp hread
      exact ⟨0, FaultAt.invalid (index?_eq_none.mp hnone), fun _ hj => absurd hj (Nat.not_lt_zero _)⟩
    have hm := index?_eq_some.mp (readAs_eq_ok.mp hm)
    rcases bind_eq_error.mp hread with hread | ⟨_, hmax, hread⟩
    · obtain ⟨hmany, rfl⟩ := demand_eq_error.mp hread
      exact ⟨0, FaultAt.tooMany hm (Nat.lt_of_not_le hmany), fun _ hj => absurd hj (Nat.not_lt_zero _)⟩
    have hmax := demand_eq_ok.mp hmax
    rcases bind_eq_error.mp hread with hread | ⟨_, -, hread⟩
    · obtain ⟨i, hi, hbefore⟩ := readArcs_eq_error hread
      refine ⟨i + 1, (FileStops.later hm).mpr hi, fun j hj f' hstop => ?_⟩
      cases j with
      | zero => exact FileStops.not_first hm hmax hstop
      | succ j => exact hbefore j (by omega) f' ((FileStops.later hm).mp hstop)
    · cases hread

/-! ## Without arcs of the least cost -/

theorem ArcTokens.above (harcs : ArcTokens r n ts arcs)
    (hcost : ∀ i t, ts[4 * i + 3]? = some t → ¬WritesValue r t.text r.bottom) : ∀ a ∈ arcs, a.Addable r n := by
  induction harcs with
  | nil => exact fun _ ha => absurd ha List.not_mem_nil
  | cons hquad hfits _ ih =>
    refine List.forall_mem_cons.mpr ⟨⟨hfits, hquad.cost.1, fun hbottom => ?_⟩, ih fun i t ht => hcost (i + 1) t ht⟩
    exact hcost 0 _ rfl (hbottom ▸ hquad.cost)

/-- The costs of a file are at every fourth position. -/
theorem Describes.above (h : Describes r ts n arcs)
    (hcost : ∀ i t, ts[4 * i + 4]? = some t → ¬WritesValue r t.text r.bottom) : ∀ a ∈ arcs, a.Addable r n := by
  cases h with
  | intro _ _ harcs => exact harcs.above hcost

theorem OverflowAt.least (h : OverflowAt r ts i) : ∃ j t, ts[4 * j + 4]? = some t ∧ WritesValue r t.text r.bottom := by
  cases h with
  | arc _ ho =>
    obtain ⟨⟨j, -, hdrop, hquad⟩, -, hbottom⟩ := ho
    refine ⟨j, _, ?_, hbottom ▸ hquad.cost⟩
    rw [List.getElem?_cons_succ, ← List.getElem?_drop, hdrop]
    rfl

/-- What the grammar allows is read if every opposite cost can be stored. -/
theorem Describes.read_eq (h : Describes r (tokens text) n arcs) (hadd : ∀ a ∈ arcs, a.Addable r n) :
    ∃ g, Network.ofArcs r n arcs = .ok g ∧ read r text = .ok ⟨n, g⟩ := by
  obtain ⟨g, hall⟩ := Network.ofArcs_ok h.le hadd
  exact ⟨g, hall, read_eq_ok_iff.mpr ⟨arcs, h, hall⟩⟩

/-- A text is cut into its longest runs of characters that are not blank, numbered by the line feeds
in front. If none of the costs is the least of the range, then a text that the grammar allows is read as the
network with its arcs in order, and for any other the error is what the first fault says. -/
theorem read_first_fault (hcost : ∀ i t, (tokens text)[4 * i + 4]? = some t → ¬WritesValue r t.text r.bottom) :
    ((tokens text).map fun t => (t.line.number, t.text.toList)) =
      ((Text.runs text.toList).map fun (before, w) => (before.count '\n' + 1, w)) ∧
    (∀ n arcs, Describes r (tokens text) n arcs →
      ∃ g, Network.ofArcs r n arcs = .ok g ∧ read r text = .ok ⟨n, g⟩) ∧
    ((¬∃ n arcs, Describes r (tokens text) n arcs) →
      ∃ e, read r text = .error (.error e) ∧ ∀ d, First (FaultAt r (tokens text)) d ↔ d = e) := by
  refine ⟨tokens_eq_runs text, fun n arcs h => h.read_eq (h.above hcost), fun hnot => ?_⟩
  cases hread : read r text with
  | ok result =>
    obtain ⟨n, g⟩ := result
    obtain ⟨arcs, h, -⟩ := read_eq_ok_iff.mp hread
    exact absurd ⟨n, arcs, h⟩ hnot
  | error f =>
    obtain ⟨i, hi, hbefore⟩ := read_eq_error hread
    cases f with
    | error e =>
      have hfirst : First (FaultAt r (tokens text)) e := ⟨i, hi, fun j hj d hd => hbefore j hj (.error d) hd⟩
      refine ⟨e, rfl, fun d => ?_⟩
      constructor
      · exact fun hd => hd.unique (fun _ _ _ h => h.unique) hfirst
      · rintro rfl
        exact hfirst
    | fault f =>
      obtain ⟨j, t, ht, hbottom⟩ := hi.1.least
      exact absurd hbottom (hcost j t ht)

/-- Arcs that share a line or take several, with a vertex that the network does not have. -/
def crooked : String := "3\r\n0 1 5\t7\n\n +1\u00a02 08\n-3 2 7 1 1 0 -1"

theorem crooked_costs : ∀ i t, (tokens crooked)[4 * i + 4]? = some t → ¬WritesValue (.ofBits 8) t.text (-128) := by
  have hall : ∀ t ∈ tokens crooked, value? (.ofBits 8) t.text ≠ some (-128) := by decide +kernel
  intro i t ht hbottom
  exact hall t (List.mem_of_getElem? ht) (value?_eq_some.mpr hbottom)

theorem crooked_first_fault : read (.ofBits 8) crooked = .error (.error (.arc 5 (.outOfRange 7 3))) ∧
    First (FaultAt (.ofBits 8) (tokens crooked)) (.arc 5 (.outOfRange 7 3)) := by
  have hread : read (.ofBits 8) crooked = .error (.error (.arc 5 (.outOfRange 7 3))) := by decide +kernel
  obtain ⟨-, hallowed, hrefused⟩ := read_first_fault crooked_costs
  have hnot : ¬∃ n arcs, Describes (.ofBits 8) (tokens crooked) n arcs := by
    rintro ⟨n, arcs, h⟩
    obtain ⟨g, -, hok⟩ := hallowed n arcs h
    cases hread.symm.trans hok
  obtain ⟨e, he, hfirst⟩ := hrefused hnot
  obtain rfl : _ = e := Failure.error.inj (Except.error.inj (hread.symm.trans he))
  exact ⟨hread, (hfirst _).mpr rfl⟩

/-! ## Arcs of the least cost -/

/-- Reading ends with a fault just where an arc of the least cost comes before anything that is wrong
with the file. Its opposite cost cannot be stored, and there is no other fault. -/
theorem read_fault_iff {f : Fault} : read r text = .error (.fault f) ↔ f = .negationOverflow ∧
    ∃ i, OverflowAt r (tokens text) i ∧ ∀ j < i, ∀ e, ¬FaultAt r (tokens text) j e := by
  constructor
  · intro hread
    obtain ⟨i, ⟨ho, rfl⟩, hbefore⟩ := read_eq_error hread
    exact ⟨rfl, i, ho, fun j hj e he => hbefore j hj (.error e) he⟩
  · rintro ⟨rfl, i, ho, hnone⟩
    have hstop : FileStops r (tokens text) i (.fault .negationOverflow) := ⟨ho, rfl⟩
    cases hread : read r text with
    | ok result =>
      obtain ⟨n, g⟩ := result
      obtain ⟨arcs, h, hall⟩ := read_eq_ok_iff.mp hread
      exact absurd hstop (h.no_stop hall)
    | error f =>
      obtain ⟨j, hj, hbefore⟩ := read_eq_error hread
      have hle : j ≤ i := Nat.le_of_not_lt fun hlt => hbefore i hlt _ hstop
      cases f with
      | error e =>
        rcases hle.lt_or_eq with hlt | rfl
        · exact absurd hj (hnone j hlt e)
        · exact absurd hj ho.no_fault
      | fault f => rw [hj.2]

/-- So a text can make the reading fail otherwise than with an error. -/
theorem read_opposite_cost : read (.ofBits 8) "2\n0 1 1 -128\n" = .error (.fault .negationOverflow) := by decide +kernel

end NetworkFile

end MinCostFlow
