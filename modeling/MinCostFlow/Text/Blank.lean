/-
  MinCostFlow.Text.Blank — the characters that separate words.

  These are the characters with the Unicode property White_Space.
-/

namespace MinCostFlow.Text

def isBlank (c : Char) : Bool :=
  let x := c.toNat
  (0x09 ≤ x && x ≤ 0x0D) || x == 0x20 || x == 0x85 || x == 0xA0 || x == 0x1680 ||
    (0x2000 ≤ x && x ≤ 0x200A) || x == 0x2028 || x == 0x2029 || x == 0x202F || x == 0x205F || x == 0x3000

end MinCostFlow.Text
