/-
  MinCostFlow.Text.Align — cells of a least width.
-/

namespace MinCostFlow.Text

/-- `s` behind as many spaces as it is shorter than `width`; a longer text is left whole. -/
def alignRight (width : Nat) (s : String) : String :=
  String.ofList (List.replicate (width - s.length) ' ') ++ s

/-- `s` followed by as many spaces as it is shorter than `width`. -/
def alignLeft (width : Nat) (s : String) : String :=
  s ++ String.ofList (List.replicate (width - s.length) ' ')

end MinCostFlow.Text
