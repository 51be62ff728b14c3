/-
  MinCostFlow.Proofs.NetworkFile.Words — the tokens of a file, found without its lines.

  A file is split into lines first and each line into words, which drops carriage returns in
  one place and other blanks in another. Both kinds of splitting happen at blanks, so together
  they cut the text just where its longest runs of characters that are not blank end, wherever
  lines begin. The number of a line is one more than the line feeds in front of it.

  Words and numbers are followed from the left (`numberedWords`). A blank in front moves the
  number on if it is a line feed and changes nothing else (`numberedWords_blank`), and a run in
  front is the first word (`numberedWords_run`).

  Proved: the tokens are the longest runs, each on the line that its place in the text says
  (`tokens_eq_runs`).
-/

import Mathlib.Data.List.TakeWhile
import MinCostFlow.NetworkFile.Token

namespace MinCostFlow

namespace Text

variable {c : Char} {w rest before text : List Char} {k : Nat}

/-! ## Longest runs -/

/-- The longest runs of characters that are not blank in a text that stands behind `before`, each with
all that is in front of it. One starts at a character that is not blank, behind a blank or nothing. -/
def runsAfter (before : List Char) : List Char → List (List Char × List Char)
  | [] => []
  | c :: rest =>
    let others := runsAfter (before ++ [c]) rest
    if isBlank c = false ∧ before.getLast?.all isBlank then
      (before, (c :: rest).takeWhile (!isBlank ·)) :: others
    else others

def runs (text : List Char) : List (List Char × List Char) := runsAfter [] text

/-! ## Words line by line -/

theorem words_nil : words [] = [] := rfl

theorem words_blank (hc : isBlank c = true) : words (c :: rest) = words rest := by
  rw [words, List.splitOnP_cons_eq_if_modifyHead, if_pos hc]
  rfl

/-- A run up to a blank or the end is a word. -/
theorem words_run (hw : w ≠ []) (hrun : ∀ c ∈ w, isBlank c = false) (hrest : ∀ c ∈ rest.head?, isBlank c = true) :
    words (w ++ rest) = w :: words rest := by
  cases rest with
  | nil =>
    rw [List.append_nil, words, List.splitOnP_eq_singleton hrun, words_nil]
    simp [hw]
  | cons c rest =>
    have hc : isBlank c = true := hrest c rfl
    rw [words_blank hc, words, List.splitOnP_append_cons_of_forall_mem hrun c hc]
    simp [words, hw]

theorem words_withoutReturn (line : List Char) : words (withoutReturn line) = words line := by
  unfold withoutReturn
  split
  · rename_i h
    obtain ⟨front, rfl⟩ := List.getLast?_eq_some_iff.mp h
    rw [List.dropLast_concat, words, words, List.splitOnP_append_cons front [] (show isBlank '\r' = true from rfl)]
    simp
  · rfl

/-- The words of each line of a text, with the number of the line. -/
def numberedWords (first : Nat) (text : List Char) : List (Nat × List Char) :=
  ((text.splitOn '\n').zipIdx first).flatMap fun (line, number) => (words line).map fun w => (number, w)

theorem splitOn_ne_nil (text : List Char) : text.splitOn '\n' ≠ [] := List.splitOnP_ne_nil _ text

theorem splitOn_cons_ne (hc : c ≠ '\n') {line : List Char} {lines : List (List Char)}
    (h : rest.splitOn '\n' = line :: lines) : (c :: rest).splitOn '\n' = (c :: line) :: lines := by
  rw [List.splitOn_eq_splitOnP] at h ⊢
  rw [List.splitOnP_cons_eq_if_modifyHead, if_neg (by simpa using hc), h]
  rfl

theorem numberedWords_nil : numberedWords k [] = [] := rfl

theorem numberedWords_lineFeed : numberedWords k ('\n' :: rest) = numberedWords (k + 1) rest := by
  rw [numberedWords, List.splitOn_eq_splitOnP, List.splitOnP_cons_eq_if_modifyHead, if_pos (by rfl)]
  rfl

theorem numberedWords_blank (hc : isBlank c = true) :
    numberedWords k (c :: rest) = numberedWords (k + [c].count '\n') rest := by
  by_cases hfeed : c = '\n'
  · subst hfeed
    exact numberedWords_lineFeed
  · obtain ⟨line, lines, hlines⟩ := List.exists_cons_of_ne_nil (splitOn_ne_nil rest)
    have hcount : [c].count '\n' = 0 := List.count_eq_zero.mpr (by simpa using Ne.symm hfeed)
    rw [hcount, numberedWords, numberedWords, splitOn_cons_ne hfeed hlines, hlines]
    simp only [List.zipIdx_cons, List.flatMap_cons, words_blank hc, Nat.add_zero]

theorem splitOn_run (hrun : ∀ c ∈ w, isBlank c = false) {line : List Char} {lines : List (List Char)}
    (h : rest.splitOn '\n' = line :: lines) : (w ++ rest).splitOn '\n' = (w ++ line) :: lines := by
  induction w with
  | nil => exact h
  | cons c w ih =>
    have hc : c ≠ '\n' := by
      rintro rfl
      cases hrun '\n' List.mem_cons_self
    exact splitOn_cons_ne hc (ih fun d hd => hrun d (List.mem_cons_of_mem c hd))

/-- The first line of a text begins with the first character of the text, unless it is empty. -/
theorem head?_of_splitOn {line : List Char} {lines : List (List Char)} (h : rest.splitOn '\n' = line :: lines)
    (hrest : ∀ c ∈ rest.head?, isBlank c = true) : ∀ c ∈ line.head?, isBlank c = true := by
  cases rest with
  | nil =>
    obtain ⟨rfl, -⟩ := List.cons.inj (h.symm.trans (show [].splitOn '\n' = [[]] from rfl))
    simp
  | cons d rest =>
    by_cases hd : d = '\n'
    · subst hd
      rw [List.splitOn_eq_splitOnP, List.splitOnP_cons_eq_if_modifyHead, if_pos (by rfl)] at h
      obtain ⟨rfl, -⟩ := List.cons.inj h
      simp
    · obtain ⟨line', lines', hlines⟩ := List.exists_cons_of_ne_nil (splitOn_ne_nil rest)
      obtain ⟨rfl, -⟩ := List.cons.inj (h.symm.trans (splitOn_cons_ne hd hlines))
      exact hrest

theorem numberedWords_run (hw : w ≠ []) (hrun : ∀ c ∈ w, isBlank c = false)
    (hrest : ∀ c ∈ rest.head?, isBlank c = true) : numberedWords k (w ++ rest) = (k, w) :: numberedWords k rest := by
  obtain ⟨line, lines, hlines⟩ := List.exists_cons_of_ne_nil (splitOn_ne_nil rest)
  rw [numberedWords, numberedWords, splitOn_run hrun hlines, hlines]
  simp only [List.zipIdx_cons, List.flatMap_cons, words_run hw hrun (head?_of_splitOn hlines hrest), List.map_cons,
    List.cons_append]

/-! ## From lines to runs -/

/-- What is left of a text behind the rest of a run. -/
def pastRun (text : List Char) : List Char := text.dropWhile (!isBlank ·)

theorem head?_pastRun (text : List Char) : ∀ c ∈ (pastRun text).head?, isBlank c = true := by
  intro c hc
  have := List.head?_dropWhile_not (!isBlank ·) text
  rw [pastRun] at hc
  simp_all

theorem numberedWords_takeRun (hc : isBlank c = false) : numberedWords k (c :: rest) =
    (k, (c :: rest).takeWhile (!isBlank ·)) :: numberedWords k (pastRun rest) := by
  have hsplit : c :: rest = (c :: rest).takeWhile (!isBlank ·) ++ pastRun rest := by
    simp [pastRun, hc, List.takeWhile_append_dropWhile]
  have hne : (c :: rest).takeWhile (!isBlank ·) ≠ [] := by simp [hc]
  have hrun : ∀ d ∈ (c :: rest).takeWhile (!isBlank ·), isBlank d = false := by
    intro d hd
    simpa using List.mem_takeWhile_imp hd
  have hcut := numberedWords_run (k := k) hne hrun (head?_pastRun rest)
  rwa [← hsplit] at hcut

/-- Behind a blank the runs of the rest are its words. Within a run, the first of these belongs to a word
that has begun before. -/
theorem runsAfter_eq (before text : List Char) :
    (runsAfter before text).map (fun (before, w) => (before.count '\n' + 1, w)) =
      numberedWords (before.count '\n' + 1) (if before.getLast?.all isBlank then text else pastRun text) := by
  induction text generalizing before with
  | nil => split <;> rfl
  | cons c rest ih =>
    have hlast : (before ++ [c]).getLast?.all isBlank = isBlank c := by simp
    have hcount : (before ++ [c]).count '\n' + 1 = before.count '\n' + 1 + [c].count '\n' := by
      rw [List.count_append]
      omega
    have hothers := ih (before ++ [c])
    rw [hlast, hcount] at hothers
    cases hc : isBlank c with
    | true =>
      -- no run starts here, and none goes on
      rw [if_pos hc] at hothers
      have hpast : pastRun (c :: rest) = c :: rest := by simp [pastRun, hc]
      rw [runsAfter, if_neg (by simp [hc]), hothers, hpast, ite_self, numberedWords_blank hc]
    | false =>
      have hfeed : [c].count '\n' = 0 := by
        refine List.count_eq_zero.mpr fun h => ?_
        obtain rfl := List.mem_singleton.mp h
        cases hc
      rw [if_neg (by simp [hc]), hfeed, Nat.add_zero] at hothers
      by_cases hstart : before.getLast?.all isBlank = true
      · rw [runsAfter, if_pos ⟨hc, hstart⟩, if_pos hstart, List.map_cons, hothers, numberedWords_takeRun hc]
      · have hpast : pastRun (c :: rest) = pastRun rest := by simp [pastRun, hc]
        rw [runsAfter, if_neg fun h => hstart h.2, if_neg hstart, hothers, hpast]

theorem runs_eq (text : List Char) :
    (runs text).map (fun (before, w) => (before.count '\n' + 1, w)) = numberedWords 1 text :=
  runsAfter_eq [] text

/-- Lines lack only the carriage returns and the empty end of a text, which hold no words. -/
theorem flatMap_lines (text : List Char) (first : Nat) :
    ((lines text).zipIdx first).flatMap (fun (line, number) => (words line).map fun w => (number, w)) =
      numberedWords first text := by
  obtain ⟨pieces, last, hpieces⟩ : ∃ pieces last, text.splitOn '\n' = pieces ++ [last] :=
    ⟨_, _, (List.dropLast_concat_getLast (splitOn_ne_nil text)).symm⟩
  have hlast : ∀ number, (([last].filter (· ≠ [])).zipIdx number).flatMap
      (fun (line, number) => (words line).map fun w => (number, w)) = (words last).map fun w => (number, w) := by
    intro number
    by_cases hnil : last = []
    · simp [hnil, words_nil]
    · simp [hnil]
  rw [lines, numberedWords, hpieces, List.dropLast_concat, List.getLast?_concat, Option.toList_some,
    List.zipIdx_append, List.zipIdx_append, List.flatMap_append, List.flatMap_append, List.length_map, hlast,
    List.zipIdx_map, List.flatMap_map]
  simp [words_withoutReturn]

end Text

namespace NetworkFile

theorem tokens_eq_numberedWords (text : String) :
    (tokens text).map (fun t => (t.line.number, t.text.toList)) = Text.numberedWords 1 text.toList := by
  rw [← Text.flatMap_lines, tokens, List.map_flatMap]
  simp [Line.tokens, Function.comp_def]

/-- The tokens of a text are the longest runs of characters that are not blank, in order. Each is on the
line that the line feeds in front of it say. -/
theorem tokens_eq_runs (text : String) : (tokens text).map (fun t => (t.line.number, t.text.toList)) =
    (Text.runs text.toList).map fun (before, w) => (before.count '\n' + 1, w) := by
  rw [tokens_eq_numberedWords, Text.runs_eq]

end NetworkFile

end MinCostFlow
