import Demand.Text.Wide
import Demand.Text.ZeroWidth

/-! The number of terminal columns a text takes.

Most characters take one column. Controls, marks and guides of the layout take none, East Asian
ideographs and pictographs take two, and one Khmer abbreviation is as long as three letters. -/

namespace Demand.Text

/-- The columns one character takes: none, one, two or three. -/
def charWidth (c : Char) : Nat :=
  if 0x20 ≤ c.toNat && c.toNat < 0x7F then 1
  else if isZeroWidth c then 0
  else if isWide c then 2
  else if c.toNat = 0x17D8 then 3
  else 1

/-- The columns a text takes. -/
def width : List Char → Nat
  | [] => 0
  | c :: cs => charWidth c + width cs

end Demand.Text
