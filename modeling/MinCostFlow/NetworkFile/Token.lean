/-
  MinCostFlow.NetworkFile.Token — the words of a network file and their lines.
-/

import MinCostFlow.Text.Lines

namespace MinCostFlow.NetworkFile

structure Line where
  /-- Counted from 1. -/
  number : Nat
  text : String
  deriving DecidableEq, Repr

structure Token where
  line : Line
  text : String
  deriving DecidableEq, Repr

def Line.tokens (line : Line) : List Token :=
  (Text.words line.text.toList).map fun w => ⟨line, String.ofList w⟩

def tokens (text : String) : List Token :=
  ((Text.lines text.toList).zipIdx 1).flatMap fun (l, number) => Line.tokens ⟨number, String.ofList l⟩

end MinCostFlow.NetworkFile
