/-
  MinCostFlow.Proofs.Search.EarlyEnd — ending a search early changes nothing.

  A search is allowed a pass for each vertex, and ends with the first pass that improves
  nothing. What a pass does depends on the labels alone, and a pass that improves nothing
  leaves the labels as they are; so had the search gone on, every further pass would have
  offered the same costs, found all of them in range, and improved nothing again
  (`correctThroughout_idle`). With a cycle of negative cost no pass is idle, and where a label
  overflows, or a pass has too many improvements to count, the search is over before one can
  be; so then nothing is left out at all.

  The count of a pass is there for the log and for the early end. It is compared with zero only
  as long as it is in range, so no pass that improves something is taken for an idle one. The
  passes of a search that makes all of them are logged like any others, so they are counted
  too, and where there is too much to count it fails with the same fault. Passes that were not
  even counted could not have too much to count, and find the same in all other cases.

  Proved: a search that makes all of its passes ends with the same labels, or fails in the same
  way, and the passes that an early end saves are idle ones; so what is found, the whole list
  of predecessors included, is the same. It is also what passes without a count find, unless
  there is too much to count (`cheapestPath_early_end`).
-/

import MinCostFlow.Proofs.Search.Reached

namespace MinCostFlow

open Labels

variable {n : Nat} {r : IntRange} {g : Network n} {arcs : List (Fin n × Fin n)} {labels : Labels n}
  {s t : Fin n}

namespace Network

/-- All of the passes, whether they improve anything or not. -/
def correctThroughout (r : IntRange) (g : Network n) (arcs : List (Fin n × Fin n)) :
    (passes : Nat) → Labels n → Search n
  | 0, labels => ⟨[], .ok labels⟩
  | passes + 1, labels =>
    match Labels.relaxAll r g arcs labels with
    | .error e => ⟨[], .error e⟩
    | .ok p =>
      let rest := correctThroughout r g arcs passes p.labels
      ⟨p.improved :: rest.improvements, rest.labels⟩

/-- The search that makes as many passes as there are vertices. -/
def searchThroughout (r : IntRange) (g : Network n) (source : Fin n) : Search n :=
  correctThroughout r g g.residualArcs n (Labels.start source)

/-- What is found by a search that makes all of its passes. -/
def cheapestPathThroughout (r : IntRange) (g : Network n) (source sink : Nat) :
    Except (Failure SolveError) (Option PredecessorTree) :=
  match vertex n source, vertex n sink with
  | .ok s, .ok t => (g.searchThroughout r s).treeTo t
  | _, _ => .error (.fault .terminalOutOfRange)

/-- What is found by as many passes without a count. -/
def cheapestPathUncounted (r : IntRange) (g : Network n) (s t : Fin n) : Except SolveError (Option PredecessorTree) :=
  (sweeps r g g.residualArcs n (start s)).map fun labels => labels.treeTo t

end Network

/-- More passes, of which none improves anything. -/
def Search.idle (x : Search n) (passes : Nat) : Search n :=
  ⟨x.improvements ++ List.replicate passes 0, x.labels⟩

namespace Network

/-- After one pass that improves nothing, all do the same. -/
theorem correctThroughout_idle (h : relaxAll r g arcs labels = .ok ⟨labels, 0⟩) (passes : Nat) :
    correctThroughout r g arcs passes labels = ⟨List.replicate passes 0, .ok labels⟩ := by
  induction passes with
  | zero => rfl
  | succ passes ih =>
    rw [correctThroughout, h]
    simp only [ih]
    rfl

/-- A search that does not fail leaves no pass out. -/
theorem correctThroughout_length {passes : Nat} {final : Labels n}
    (h : (correctThroughout r g arcs passes labels).labels = .ok final) :
    (correctThroughout r g arcs passes labels).improvements.length = passes := by
  induction passes generalizing labels with
  | zero => rfl
  | succ passes ih =>
    rw [correctThroughout] at h ⊢
    cases hp : relaxAll r g arcs labels with
    | error e => simp [hp] at h
    | ok p =>
      simp only [hp] at h ⊢
      rw [List.length_cons, ih h]

theorem correct_early_end (r : IntRange) (g : Network n) (arcs : List (Fin n × Fin n)) (passes : Nat) (labels : Labels n) :
    ∃ saved, correctThroughout r g arcs passes labels = (correct r g arcs passes labels).idle saved := by
  induction passes generalizing labels with
  | zero => exact ⟨0, rfl⟩
  | succ passes ih =>
    cases hp : relaxAll r g arcs labels with
    | error e =>
      refine ⟨0, ?_⟩
      rw [correctThroughout, correct_failed hp, hp]
      simp [Search.idle]
    | ok p =>
      by_cases h0 : p.improved = 0
      · -- the pass has left the labels alone, so the next ones begin where it began
        obtain rfl := (relaxes_improved hp).2 h0
        refine ⟨passes, ?_⟩
        rw [correctThroughout, correct_last hp h0, hp]
        simp only [correctThroughout_idle hp]
        rfl
      · obtain ⟨saved, hrest⟩ := ih p.labels
        refine ⟨saved, ?_⟩
        rw [correctThroughout, correct_next hp h0, hp]
        simp only [hrest]
        rfl

theorem cheapestPath_uncounted (h : ¬g.Crowded r s) : g.cheapestPath r s t = orError (g.cheapestPathUncounted r s t) := by
  rw [cheapestPath_eq, Search.treeTo, search_uncrowded h, cheapestPathUncounted]
  cases sweeps r g g.residualArcs n (start s) with
  | error d => rfl
  | ok labels => rfl

/-- Whatever the network and its costs are: a search finds what it would find in all of its passes, and fails
where it would fail. Each pass that it does not make would improve nothing, and all of its passes are as many
as there are vertices, unless it fails. Passes without a count find the same, but that they do not notice
where there is too much to count. -/
theorem cheapestPath_early_end (r : IntRange) (g : Network n) :
    (∀ source sink, g.cheapestPath r source sink = g.cheapestPathThroughout r source sink) ∧
    (∀ s, (∃ saved, g.searchThroughout r s = (g.search r s).idle saved) ∧
      ∀ labels, (g.searchThroughout r s).labels = .ok labels → (g.searchThroughout r s).improvements.length = n) ∧
    ∀ s t : Fin n, (¬g.Crowded r s → g.cheapestPath r s t = orError (g.cheapestPathUncounted r s t)) ∧
      (g.Crowded r s → g.cheapestPath r s t = .error (.fault .counterOverflow)) := by
  have hsearch : ∀ s, ∃ saved, g.searchThroughout r s = (g.search r s).idle saved :=
    fun s => correct_early_end r g g.residualArcs n (start s)
  refine ⟨fun source sink => ?_, fun s => ⟨hsearch s, fun labels h => correctThroughout_length h⟩, fun s t => ⟨?_, ?_⟩⟩
  · unfold cheapestPath cheapestPathThroughout
    cases vertex n source with
    | error => rfl
    | ok s =>
      cases vertex n sink with
      | error => rfl
      | ok t =>
        obtain ⟨saved, hs⟩ := hsearch s
        simp only [hs]
        rfl
  · exact cheapestPath_uncounted
  · intro hc
    exact cheapestPath_fault_iff.mpr ⟨rfl, hc⟩

/-- The first pass settles the one arc, and an idle pass ends the search. -/
example : (((empty 3).setArc 0 2 1 4).search (.ofBits 8) 0).improvements = [1, 0] ∧
    (((empty 3).setArc 0 2 1 4).searchThroughout (.ofBits 8) 0).improvements = [1, 0, 0] := by
  decide

end Network

end MinCostFlow
