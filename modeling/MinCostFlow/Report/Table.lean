/-
  MinCostFlow.Report.Table — a matrix as text.

  The columns are numbered on top and the rows on the left. Every number is aligned to
  the right in a cell of five characters; a wider number takes the room it needs.
-/

import MinCostFlow.Matrix.Basic
import MinCostFlow.Text.Align

namespace MinCostFlow.Report

def cellWidth : Nat := 5

def cell (text : String) : String := Text.alignRight cellWidth text

def tableHeader (n : Nat) : String :=
  cell "" ++ String.join ((List.range n).map fun j => cell (toString j)) ++ "\n"

def tableRow (number : Nat) (values : List Int) : String :=
  cell (toString number) ++ String.join (values.map fun x => cell (toString x)) ++ "\n"

def table {n : Nat} (m : Matrix n) : String :=
  tableHeader n ++ String.join (m.rows.mapIdx tableRow)

/-- A table below its label, preceded by an empty line. -/
def labeledTable {n : Nat} (label : String) (m : Matrix n) : String :=
  s!"\n {label} \n{table m}"

end MinCostFlow.Report
