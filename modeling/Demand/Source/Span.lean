/-! Places in source texts.

A span is a stretch of characters of one text, counted in characters from its start; a location
is a span in a known file. Positions have 64 bits, so a span that was not taken from a text may
have no position after it, and its location no text. -/

namespace Demand

/-- A stretch of characters: where it starts and how many there are. -/
structure Span where
  start : Nat
  length : Nat
deriving DecidableEq, Repr

namespace Span

/-- The span of nothing, at the start of the text. -/
def empty : Span := ⟨0, 0⟩

def isEmpty (s : Span) : Bool :=
  s.length == 0

/-- The position after the last character. -/
def stop (s : Span) : Nat :=
  s.start + s.length

/-- The last position there is. -/
def lastPosition : Nat := 18446744073709551615

/-- The position after the last character, if it is one. -/
def stop? (s : Span) : Option Nat :=
  if s.stop ≤ lastPosition then some s.stop else none

/-- What is said about a span without a position after it. -/
def overflowMessage : String := "attempt to add with overflow"

/-- The least span that holds both. An empty span holds nothing, wherever it stands. -/
def cover (a b : Span) : Span :=
  if b.isEmpty then a
  else if a.isEmpty then b
  else
    let start := min a.start b.start
    ⟨start, max a.stop b.stop - start⟩

/-- The span that grows from nothing to cover one span after the other, after each of them. -/
def growth (spans : List Span) : List Span :=
  (spans.foldl (fun (grown, s) b => (grown ++ [s.cover b], s.cover b)) ([], empty)).1

/-- The span as many characters further on. -/
def shift (s : Span) (n : Nat) : Span :=
  ⟨n + s.start, s.length⟩

@[simp] theorem cover_empty (a : Span) : a.cover empty = a := rfl

@[simp] theorem empty_cover (b : Span) : empty.cover b = if b.isEmpty then empty else b := by
  simp [cover, isEmpty, empty]

end Span

/-- The number of a source file. -/
structure FileId where
  index : Nat
deriving DecidableEq, Repr

/-- `file#3`. -/
def FileId.text (f : FileId) : String :=
  s!"file#{f.index}"

/-- A span of a file. -/
structure Location where
  file : FileId
  span : Span
deriving DecidableEq, Repr

/-- `file#3@4..9`: the file, the first position and the one after the last. -/
def Location.text? (l : Location) : Option String :=
  l.span.stop?.map fun stop => s!"{l.file.text}@{l.span.start}..{stop}"

end Demand
