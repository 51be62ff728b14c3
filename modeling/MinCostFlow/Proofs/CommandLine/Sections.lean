/-
  MinCostFlow.Proofs.CommandLine.Sections — what a file adds to the output.

  A section of the output begins with the name of its file, which may be any text. Behind it
  stand the tables, if they are asked for and there is a network to show, and then the summary,
  if the network was solved. Tables consist of their labels, blanks and numbers. The letter that
  a summary begins with is in none of these (`Unmarked`), so tables alone hold no summary.

  Proved: behind its heading, a section holds a summary exactly if the file was solved
  (`solveFile_honest`).
-/

import MinCostFlow.CommandLine.Session
import MinCostFlow.Proofs.Report.Framing

namespace MinCostFlow.CommandLine

variable {n : Nat} {text a b : String} {texts : List String}

/-! ## Texts without a summary -/

/-- The first letter of a summary does not occur. -/
def Unmarked (text : String) : Prop := 'W' ∉ text.toList

instance (text : String) : Decidable (Unmarked text) := inferInstanceAs (Decidable (_ ∉ _))

@[simp] theorem unmarked_append : Unmarked (a ++ b) ↔ Unmarked a ∧ Unmarked b := by
  simp [Unmarked]

@[simp] theorem unmarked_join : Unmarked (String.join texts) ↔ ∀ text ∈ texts, Unmarked text := by
  simp [Unmarked]

@[simp] theorem unmarked_natural (k : Nat) : Unmarked k.repr := by
  intro hmark
  cases Report.isDigit_of_mem_natural hmark

@[simp] theorem unmarked_number (x : Int) : Unmarked x.repr := by
  intro hmark
  exact absurd (Report.numeric_of_mem_number hmark) (by decide)

@[simp] theorem unmarked_cell : Unmarked (Report.cell text) ↔ Unmarked text :=
  not_congr (Report.mem_cell (by decide))

theorem unmarked_table (m : Matrix n) : Unmarked (Report.table m) := by
  have hcorner : Unmarked "" := by decide
  have hend : Unmarked "\n" := by decide
  have hrow : ∀ i (values : List Int), Unmarked (Report.tableRow i values) := by
    intro i values
    simp [Report.tableRow, hend]
  have hheader : Unmarked (Report.tableHeader n) := by simp [Report.tableHeader, hcorner, hend]
  simp only [Report.table, unmarked_append, unmarked_join, List.mem_mapIdx]
  refine ⟨hheader, ?_⟩
  rintro _ ⟨i, _, rfl⟩
  exact hrow i _

theorem unmarked_tables (g : Network n) : Unmarked (tables g) := by
  have hend : Unmarked "\n" := by decide
  have hlabeled : ∀ label (m : Matrix n), Unmarked label → Unmarked (Report.labeledTable label m) := by
    intro label m hlabel
    show Unmarked ("\n " ++ label ++ " \n" ++ Report.table m)
    simp only [unmarked_append]
    exact ⟨⟨⟨by decide, hlabel⟩, by decide⟩, unmarked_table m⟩
  have hcost := hlabeled "Edge Cost" g.cost (by decide)
  have hcapacity := hlabeled "Capacity" g.capacity (by decide)
  simp [tables, hcost, hcapacity, hend]

/-! ## Texts with a summary -/

/-- Somewhere in the text there is the summary of a result, from its first line to its last. -/
def HoldsSummary (text : String) : Prop :=
  ∃ before result flows cut after, text = before ++ Report.unlines (Report.summaryLines result flows cut) ++ after

theorem Unmarked.no_summary (h : Unmarked text) : ¬HoldsSummary text := by
  rintro ⟨before, result, flows, cut, after, rfl⟩
  obtain ⟨⟨-, hsummary⟩, -⟩ := (unmarked_append.mp h).imp_left unmarked_append.mp
  refine hsummary ?_
  simp [Report.unlines, Report.summaryLines]

theorem conclusion_eq_ok {x : Solution n} (h : conclusion x = .ok text) :
    ∃ result flows cut, text = Report.unlines (Report.summaryLines result flows cut) := by
  obtain ⟨result, -, h⟩ := bind_eq_ok.mp h
  obtain ⟨cut, -, h⟩ := bind_eq_ok.mp h
  rw [orFault_eq_ok, Report.summary, map_eq_ok] at h
  obtain ⟨flows, -, rfl⟩ := h
  exact ⟨result, flows, _, rfl⟩

/-! ## Sections -/

/-- How a section begins. -/
def heading (path : String) : String := s!"\n****Find Flow {path}\n"

/-- A section under this heading that holds a summary just if its file was solved. -/
def Section.Honest (x : Section) (path : String) : Prop :=
  ∃ body, x.output = heading path ++ body ∧ (HoldsSummary body ↔ x.ending = .ok ())

theorem solveNetwork_honest {path front : String} {log : List Log.Record} {g : Network n} (hfront : Unmarked front) :
    (solveNetwork (heading path ++ front) log g).Honest path := by
  unfold solveNetwork
  cases h : conclusion (g.solve range) with
  | error e =>
    simp only [h]
    refine ⟨front, rfl, iff_of_false hfront.no_summary ?_⟩
    exact fun h => by cases h
  | ok summary =>
    simp only [h]
    obtain ⟨result, flows, cut, rfl⟩ := conclusion_eq_ok h
    refine ⟨front ++ Report.unlines (Report.summaryLines result flows cut), String.append_assoc, iff_of_true ?_ rfl⟩
    exact ⟨front, result, flows, cut, "", by simp⟩

theorem solveFile_honest (o : Options) (path : String) (contents : Except String ByteArray) :
    (solveFile o path contents).Honest path := by
  have hshort : ∀ log e, (⟨heading path, log, .error e⟩ : Section).Honest path := by
    intro log e
    have hempty : Unmarked "" := by decide
    refine ⟨"", String.append_empty.symm, iff_of_false hempty.no_summary ?_⟩
    exact fun h => by cases h
  unfold solveFile
  split
  · exact hshort _ _
  · rename_i n g _
    split
    · exact hshort _ _
    · split
      · have hnone : heading path = heading path ++ "" := String.append_empty.symm
        show (solveNetwork (heading path) _ _).Honest path
        rw [hnone]
        exact solveNetwork_honest (by decide)
      · exact solveNetwork_honest (unmarked_tables _)

end MinCostFlow.CommandLine
