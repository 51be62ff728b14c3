/-
  MinCostFlow.Text.Lines — lines and words.

  A line ends with a line feed, and a carriage return right before that line feed
  belongs to the ending. What follows the last line feed is a line too unless it is
  empty; a carriage return at its end is part of it. Words are the longest runs of
  characters that are not blank.
-/

import MinCostFlow.Text.Blank

namespace MinCostFlow.Text

/-- A line without the carriage return that its ending may start with. -/
def withoutReturn (line : List Char) : List Char :=
  if line.getLast? = some '\r' then line.dropLast else line

def lines (text : List Char) : List (List Char) :=
  let pieces := text.splitOn '\n'
  pieces.dropLast.map withoutReturn ++ pieces.getLast?.toList.filter (· ≠ [])

def words (line : List Char) : List (List Char) := (line.splitOnP isBlank).filter (· ≠ [])

end MinCostFlow.Text
