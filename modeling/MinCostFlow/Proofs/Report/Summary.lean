/-
  MinCostFlow.Proofs.Report.Summary — what a summary says, and that it says it once.

  The lines of a summary hold no line feed. An empty line ends the augmentations, none of which
  is empty, and the arcs end where a line begins with another letter. A path may be of any
  length, and even of none, but there is no parenthesis in it, and none in the numbers that
  stand between parentheses.

  Proved: every part of a summary is determined by its text (`summary_unambiguous`).
-/

import MinCostFlow.Proofs.Flow.Listing
import MinCostFlow.Proofs.Reach.Sound
import MinCostFlow.Proofs.Report.Framing

namespace MinCostFlow.Report

variable {r : IntRange} {n m : Nat} {g : Network n} {g' : Network m} {result result' : FlowResult}
  {flows flows' : List ArcFlow} {cut cut' : List Nat} {a b : Augmentation} {x y : ArcFlow}
  {units units' cost cost' : Int} {line : String}

/-! ## The lines -/

/-- What a line says behind its opening parenthesis. -/
def amounts (units cost : Int) : List Char := units.repr.toList ++ ')' :: ("  $".toList ++ cost.repr.toList)

theorem amounts_inj (h : amounts units cost = amounts units' cost') : units = units' ∧ cost = cost' := by
  obtain ⟨hunits, h⟩ := number_append_inj (by decide) h
  exact ⟨hunits, number_inj (List.append_cancel_left h)⟩

theorem augmentation_eq (a : Augmentation) : augmentation a =
    String.intercalate " -> " (a.path.map toString) ++ " (" ++ a.bottleneck.repr ++ ")  $" ++ a.cost.repr := rfl

theorem toList_augmentation (a : Augmentation) :
    (augmentation a).toList = (joined " -> " a.path ++ [' ']) ++ '(' :: amounts a.bottleneck a.cost := by
  simp [augmentation_eq, joined, amounts]

theorem oneLine_augmentation (a : Augmentation) : OneLine (augmentation a) := by
  have hroute := oneLine_intercalate " -> " (by decide) a.path
  simp only [augmentation_eq, oneLine_append, oneLine_number, hroute, true_and, and_true]
  decide

theorem not_paren_of_mem_path {path : List Nat} {c : Char} (h : c ∈ joined " -> " path ++ [' ']) : c ≠ '(' := by
  rintro rfl
  rcases List.mem_append.mp h with h | h
  · exact absurd (mem_joined h) (by decide)
  · exact absurd h (by decide)

theorem augmentation_inj (h : augmentation a = augmentation b) : a = b := by
  have hlist := congrArg String.toList h
  rw [toList_augmentation, toList_augmentation] at hlist
  have hparen : ¬ '(' ≠ '(' := not_not.mpr rfl
  obtain ⟨hroute, -, hamounts⟩ :=
    eq_of_ends (fun _ => not_paren_of_mem_path) (fun _ => not_paren_of_mem_path) hparen hparen hlist
  have hroute := List.append_cancel_right hroute
  have hpath := joined_inj rfl (by decide) hroute
  obtain ⟨hunits, hcost⟩ := amounts_inj hamounts
  cases a
  cases b
  simp_all

theorem arcFlow_eq (x : ArcFlow) : arcFlow x =
    "Flow " ++ x.tail.repr ++ " -> " ++ x.head.repr ++ " (" ++ x.flow.repr ++ ")  $" ++ x.cost.repr := rfl

theorem toList_arcFlow (x : ArcFlow) : (arcFlow x).toList = "Flow ".toList ++ (x.tail.repr.toList ++
    ' ' :: ("-> ".toList ++ (x.head.repr.toList ++ ' ' :: '(' :: amounts x.flow x.cost))) := by
  simp [arcFlow_eq, amounts]

theorem oneLine_arcFlow (x : ArcFlow) : OneLine (arcFlow x) := by
  simp only [arcFlow_eq, oneLine_append, oneLine_natural, oneLine_number, and_true]
  decide

theorem arcFlow_inj (h : arcFlow x = arcFlow y) : x = y := by
  have hlist := congrArg String.toList h
  rw [toList_arcFlow, toList_arcFlow] at hlist
  obtain ⟨htail, hlist⟩ := natural_append_inj (by decide) (List.append_cancel_left hlist)
  obtain ⟨hhead, hlist⟩ := natural_append_inj (by decide) (List.append_cancel_left hlist)
  obtain ⟨hflow, hcost⟩ := amounts_inj (List.cons.inj hlist).2
  cases x
  cases y
  simp_all

theorem vertexSet_inj (h : vertexSet cut = vertexSet cut') : cut = cut' := by
  have hlist := congrArg String.toList h
  simp only [vertexSet, String.toList_append] at hlist
  have hjoined : joined ", " cut = joined ", " cut' := List.append_cancel_left (List.append_cancel_right hlist)
  exact joined_inj rfl (by decide) hjoined

theorem oneLine_vertexSet (cut : List Nat) : OneLine (vertexSet cut) := by
  have hlist := oneLine_intercalate ", " (by decide) cut
  simp only [vertexSet, oneLine_append, hlist, and_true]
  decide

/-! ## The text -/

/-- The lines below the arcs. -/
def totals (result : FlowResult) (cut : List Nat) : List String :=
  ["TOTAL FLOW: " ++ result.totalFlow.repr, "TOTAL COST: " ++ result.totalCost.repr, "MINIMUM CUT: " ++ vertexSet cut]

theorem totals_inj (h : totals result cut = totals result' cut') :
    result.totalFlow = result'.totalFlow ∧ result.totalCost = result'.totalCost ∧ cut = cut' := by
  have hlabeled : ∀ {label s t : String}, label ++ s = label ++ t → s.toList = t.toList := by
    intro label s t h
    have hlist := congrArg String.toList h
    exact List.append_cancel_left (by simpa only [String.toList_append] using hlist)
  simp only [totals, List.cons.injEq, and_true] at h
  obtain ⟨hflow, hcost, hcut⟩ := h
  exact ⟨number_inj (hlabeled hflow), number_inj (hlabeled hcost),
    vertexSet_inj (String.toList_injective (hlabeled hcut))⟩

theorem oneLine_of_mem_totals (h : line ∈ totals result cut) : OneLine line := by
  simp only [totals, List.mem_cons, List.not_mem_nil, or_false] at h
  rcases h with rfl | rfl | rfl
  · exact oneLine_append.mpr ⟨by decide, oneLine_number _⟩
  · exact oneLine_append.mpr ⟨by decide, oneLine_number _⟩
  · exact oneLine_append.mpr ⟨by decide, oneLine_vertexSet cut⟩

theorem summaryLines_eq (result : FlowResult) (flows : List ArcFlow) (cut : List Nat) :
    summaryLines result flows cut = "WEIGHTED FLOW:" :: (result.augmentations.map augmentation ++
      "" :: "FINAL EDGE FLOW:" :: (flows.map arcFlow ++ totals result cut)) := by
  simp only [summaryLines, List.cons_append, List.nil_append, List.append_assoc]
  rfl

theorem oneLine_of_mem_summaryLines (h : line ∈ summaryLines result flows cut) : OneLine line := by
  rw [summaryLines_eq] at h
  simp only [List.mem_append, List.mem_cons, List.mem_map] at h
  rcases h with rfl | ⟨a, -, rfl⟩ | rfl | rfl | ⟨x, -, rfl⟩ | h
  · decide
  · exact oneLine_augmentation a
  · decide
  · decide
  · exact oneLine_arcFlow x
  · exact oneLine_of_mem_totals h

/-- The empty line ends the augmentations. -/
theorem augmentation_ne_empty (a : Augmentation) : augmentation a ≠ "" := by
  intro h
  have hlist := congrArg String.toList h
  simp [toList_augmentation] at hlist

/-- The letter of the first total ends the arcs. -/
theorem head_arcFlow (x : ArcFlow) : (arcFlow x).toList.head? = some 'F' := by
  rw [toList_arcFlow]
  rfl

theorem head_total (k : Int) : ("TOTAL FLOW: " ++ k.repr).toList.head? = some 'T' := by
  rw [String.toList_append]
  rfl

theorem summaryLines_inj (h : summaryLines result flows cut = summaryLines result' flows' cut') :
    result = result' ∧ flows = flows' ∧ cut = cut' := by
  have hempty : ∀ (as : List Augmentation), ∀ line ∈ as.map augmentation, line ≠ "" := by
    intro as
    exact List.forall_mem_map.mpr fun a _ => augmentation_ne_empty a
  have hletter : ∀ (flows : List ArcFlow), ∀ line ∈ flows.map arcFlow, line.toList.head? = some 'F' := by
    intro flows
    exact List.forall_mem_map.mpr fun x _ => head_arcFlow x
  have htotal : ∀ k : Int, ¬("TOTAL FLOW: " ++ k.repr).toList.head? = some 'F' := by
    intro k
    rw [head_total]
    decide
  rw [summaryLines_eq, summaryLines_eq] at h
  obtain ⟨has, -, h⟩ := eq_of_ends (hempty _) (hempty _) (not_not.mpr rfl) (not_not.mpr rfl) (List.cons.inj h).2
  obtain ⟨hflows, hfirst, hrest⟩ := eq_of_ends (hletter _) (hletter _) (htotal _) (htotal _) (List.cons.inj h).2
  obtain ⟨hflow, hcost, hcut⟩ := totals_inj (congrArg₂ List.cons hfirst hrest)
  refine ⟨?_, List.map_injective_iff.mpr (fun _ _ => arcFlow_inj) hflows, hcut⟩
  have has := List.map_injective_iff.mpr (fun _ _ => augmentation_inj) has
  cases result
  cases result'
  simp_all

/-- All parts can be read off the text, of which there is one. -/
theorem summary_unambiguous (hg : Reach r g) (hg' : Reach r g') (result result' : FlowResult) (cut cut' : List Nat) :
    ∃ flows flows' text text',
      g.arcFlows r = .ok flows ∧ summary r g result cut = .ok text ∧
      g'.arcFlows r = .ok flows' ∧ summary r g' result' cut' = .ok text' ∧
      (text = text' → result = result' ∧ flows = flows' ∧ cut = cut') := by
  have hflows := Network.arcFlows_eq (reach_sound hg)
  have hflows' := Network.arcFlows_eq (reach_sound hg')
  refine ⟨_, _, _, _, hflows, congrArg _ hflows, hflows', congrArg _ hflows', fun h => ?_⟩
  exact summaryLines_inj (unlines_inj (fun _ => oneLine_of_mem_summaryLines) (fun _ => oneLine_of_mem_summaryLines) h)

/-- A path of two vertices is not taken for one of three. -/
theorem refilled_summary_differs :
    ∃ text text', summary (.ofBits 32) diamond ⟨1, 3, [⟨[0, 12], 1, 3⟩]⟩ [0] = .ok text ∧
      summary (.ofBits 32) refilled ⟨1, 3, [⟨[0, 1, 2], 1, 3⟩]⟩ [0] = .ok text' ∧ text ≠ text' := by
  obtain ⟨_, _, text, text', -, htext, -, htext', hsame⟩ := summary_unambiguous (.built diamond_built) refilled_reach
    ⟨1, 3, [⟨[0, 12], 1, 3⟩]⟩ ⟨1, 3, [⟨[0, 1, 2], 1, 3⟩]⟩ [0] [0]
  refine ⟨text, text', htext, htext', fun h => ?_⟩
  obtain ⟨hresult, -, -⟩ := hsame h
  cases hresult

end MinCostFlow.Report
