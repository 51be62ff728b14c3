/-
  MinCostFlow.Proofs.Wider.Read — a network file in a wider range.

  Where a text is split, and which of its tokens are numbers, does not depend on a range.
  That decides which numbers are accepted as capacities and costs, and whether the opposite
  cost can be stored. A text that is refused may be accepted in a wider range, so nothing is
  said of refusals. A text that is accepted has had every number in range and so describes the
  same network there.

  Proved: what is read in one range is read in every wider one, and solving it between any
  two numbers does the same there unless it overflows in the first (`read_solve_wider`).
-/

import MinCostFlow.Proofs.Wider.Solve

namespace MinCostFlow

variable {n : Nat} {r wide : IntRange} {g : Network n} {c : Int} {text : String}

section

variable (h : r ⊆ wide)

include h

theorem value_wider (hc : Decimal.value? r text = some c) : Decimal.value? wide text = some c := by
  simp only [Decimal.value?, Option.filter_eq_some_iff, decide_eq_true_eq] at hc ⊢
  exact ⟨hc.1, h c hc.2⟩

theorem addArc_agrees (g : Network n) (tail head : Nat) (c k : Int) :
    Agrees (fun _ => True) (g.addArc r tail head c k) (g.addArc wide tail head c k) := by
  unfold Network.addArc
  refine .andThen fun u => .andThen fun v => .andThen fun _ => ?_
  exact (Agrees.require h trivial _).bind fun _ => .same _

namespace NetworkFile

theorem readAs_agrees (t : Token) (field : Field) :
    Agrees (fun _ => True) (t.readAs field (Decimal.value? r)) (t.readAs field (Decimal.value? wide)) :=
  Agrees.expect (fun _ hc => value_wider h hc) trivial

theorem readArcs_agrees (g : Network n) (ts : List Token) :
    Agrees (fun _ => True) (readArcs r g ts) (readArcs wide g ts) := by
  fun_induction readArcs r g ts with
  | case1 => exact .same _
  | case2 => exact .same _
  | case3 => exact .same _
  | case4 g t head c =>
    refine .andThen fun _ => .andThen fun _ => ?_
    exact (readAs_agrees h c .capacity).bind fun _ => .same _
  | case5 g t head c k rest ih =>
    refine .andThen fun tail => .andThen fun head => ?_
    refine (readAs_agrees h c .capacity).bind fun capacity => ?_
    refine (readAs_agrees h k .cost).bind fun cost => ?_
    have hadd := addArc_agrees h g tail head capacity cost
    exact (hadd.mapError fun _ _ => trivial).bind ih

theorem read_agrees (text : String) : Agrees (fun _ => True) (read r text) (read wide text) := by
  unfold read
  split
  · exact .same _
  · refine .andThen fun n => .andThen fun _ => ?_
    exact (readArcs_agrees h (Network.empty n) _).bind fun g => .same _

end NetworkFile

end

/-- A text that is read as a network in one range is read as the same network in every wider range, and
solving it does the same there, to the last residual capacity, whatever it ends with but an overflow. -/
theorem read_solve_wider (h : r ⊆ wide) (hg : NetworkFile.read r text = .ok ⟨n, g⟩) :
    NetworkFile.read wide text = .ok ⟨n, g⟩ ∧
      ∀ source sink, (∀ c, (g.solveBetween r source sink).outcome ≠ .error (.error (.overflow c))) →
        g.solveBetween wide source sink = g.solveBetween r source sink := by
  refine ⟨(NetworkFile.read_agrees h text).ok hg, fun source sink hx => ?_⟩
  exact solveBetween_wider h (built_sound (.read hg)) hx

def diamondText : String := "4\n0 1 1 1\n0 2 1 3\n1 2 1 1\n1 3 1 4\n2 3 1 1\n"

theorem diamondText_read : NetworkFile.read (.ofBits 8) diamondText = .ok ⟨4, diamond⟩ := by
  decide +kernel

theorem diamondText_wider : NetworkFile.read (.ofBits 64) diamondText = .ok ⟨4, diamond⟩ ∧
    diamond.solveBetween (.ofBits 64) 0 3 = diamond.solveBetween (.ofBits 8) 0 3 := by
  have hwider : IntRange.ofBits 8 ⊆ IntRange.ofBits 64 := by
    intro x hx
    have h8 : -128 ≤ x ∧ x ≤ 127 := hx
    have h64 : -9223372036854775808 ≤ x ∧ x ≤ 9223372036854775807 := by omega
    exact h64
  have hsolved : (diamond.solveBetween (.ofBits 8) 0 3).outcome =
      .ok ⟨2, 9, [⟨[0, 1, 2, 3], 1, 3⟩, ⟨[0, 2, 1, 3], 1, 6⟩]⟩ := by
    decide +kernel
  obtain ⟨hread, hsame⟩ := read_solve_wider hwider diamondText_read
  refine ⟨hread, hsame 0 3 fun c hc => ?_⟩
  cases hsolved.symm.trans hc

end MinCostFlow
