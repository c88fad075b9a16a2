/-! Lines of a text.

A line ends with a line feed, or with a carriage return and a line feed. What follows the last of
them is a line only if there is something. -/

namespace Demand.Text

/-- A line without its end, and how many characters its end has. -/
structure Line where
  chars : List Char
  ending : Nat
deriving DecidableEq, Repr

/-- The line with these characters before a line feed, given from the last to the first. -/
def Line.ofReversed : List Char → Line
  | '\r' :: cs => ⟨cs.reverse, 2⟩
  | cs => ⟨cs.reverse, 1⟩

/-- The lines of a text of which the characters in `begun` are read, from the last to the first. -/
def linesFrom (begun : List Char) : List Char → List Line
  | [] => if begun.isEmpty then [] else [⟨begun.reverse, 0⟩]
  | c :: cs =>
    if c = '\n' then Line.ofReversed begun :: linesFrom [] cs else linesFrom (c :: begun) cs

def lines (text : List Char) : List Line :=
  linesFrom [] text

end Demand.Text
