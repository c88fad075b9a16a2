/-! Texts set in columns: padded with spaces to a number of characters, never cut. -/

namespace Demand.Text

/-- `n` spaces. -/
def spaces (n : Nat) : String :=
  String.ofList (List.replicate n ' ')

/-- The text at the left of a column of `n` characters. -/
def padRight (n : Nat) (s : String) : String :=
  s ++ spaces (n - s.length)

/-- The text at the right of a column of `n` characters. -/
def padLeft (n : Nat) (s : String) : String :=
  spaces (n - s.length) ++ s

end Demand.Text
