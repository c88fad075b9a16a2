import Demand.Snippet.Basic
import Demand.Text.Lines
import Demand.Text.Width

/-! The body of a slice: its lines of text with the labels drawn below them.

A label within a line is drawn below it. A label over several lines starts with a corner, runs down
at the left of the lines with one bar for each, and ends below its last line. Lines far from any
label are left out. -/

namespace Demand.Snippet

/-- A line of the text: its number, where it starts, and its characters. -/
structure SourceLine where
  number : Nat
  start : Nat
  chars : List Char
deriving DecidableEq, Repr

namespace SourceLine

/-- The position of the end of the line. -/
def stop (l : SourceLine) : Nat :=
  l.start + l.chars.length

/-- The column of a position of the line. The end of the line takes one column. -/
def column (l : SourceLine) (position : Nat) : Nat :=
  Text.width (l.chars.take (position - l.start)) + (if l.stop < position then 1 else 0)

/-- The lines of a text, the first with this number and position. -/
def numberFrom (n start : Nat) : List Text.Line → List SourceLine
  | [] => []
  | l :: ls => ⟨n, start, l.chars⟩ :: numberFrom (n + 1) (start + l.chars.length + l.ending) ls

def ofText (text : List Char) : List SourceLine :=
  numberFrom 1 0 (Text.lines text)

end SourceLine

/-- A mark at the left of a line, of a label that goes over several lines. -/
structure Bar where
  isCorner : Bool
  severity : Severity
deriving DecidableEq, Repr

/-- Which part of a label is drawn below a line. -/
inductive Part where
  | whole | opening | closing
deriving DecidableEq, Repr

/-- What is drawn below a line: from which column to which, and what is said there. -/
structure Underline where
  part : Part
  first : Nat
  last : Nat
  severity : Severity
  text : String
deriving DecidableEq, Repr

/-- A line of the drawing. -/
inductive BodyLine where
  | source (line : SourceLine) (bars : List Bar)
  | underline (a : Underline) (bars : List Bar)
  /-- Lines are left out here. -/
  | fold (bars : List Bar)
  | blank
deriving DecidableEq, Repr

namespace BodyLine

def bars : BodyLine → List Bar
  | source _ bars | underline _ bars | fold bars => bars
  | blank => []

/-- The line with one more bar. -/
def addBar (b : Bar) : BodyLine → BodyLine
  | source line bars => source line (bars ++ [b])
  | underline a bars => underline a (bars ++ [b])
  | fold bars => fold (bars ++ [b])
  | blank => blank

def source? : BodyLine → Option SourceLine
  | source line _ => some line
  | _ => none

end BodyLine

/-- Adds a bar to the line that was drawn last. -/
def addBarToLast (b : Bar) : List BodyLine → List BodyLine
  | [] => []
  | l :: drawn => l.addBar b :: drawn

/-- Draws the part of a label that belongs to a line, after the lines in `drawn`, the last of which
stands first. Tells whether the label goes on below. -/
def drawLabel (line : SourceLine) (drawn : List BodyLine) (l : Label) : List BodyLine × Bool :=
  let s := line.start
  let e := line.stop
  let bar : Bar := ⟨false, l.severity⟩
  if e < l.start then (drawn, true)
  else if (s ≤ l.start && l.stop ≤ e) || (l.start == e && l.stop - l.start ≤ 1) then
    (.underline ⟨.whole, line.column l.start, line.column l.stop, l.severity, l.text⟩ [] :: drawn,
      false)
  else if s ≤ l.start && l.start ≤ e && e < l.stop then
    if l.start = s then (addBarToLast ⟨true, l.severity⟩ drawn, true)
    else
      let column := line.column l.start
      (.underline ⟨.opening, column, column + 1, l.severity, ""⟩ [] :: drawn, true)
  else if l.start < s && e < l.stop then (addBarToLast bar drawn, true)
  else if l.start < s && s ≤ l.stop && l.stop ≤ e then
    let column := line.column l.stop - 1
    (.underline ⟨.closing, column, column + 1, l.severity, l.text⟩ [bar] :: addBarToLast bar drawn,
      false)
  else (drawn, true)

/-- Draws what belongs to a line of all labels in order, and gives the labels that go on below. -/
def drawLabels (line : SourceLine) (drawn : List BodyLine) : List Label →
    List BodyLine × List Label
  | [] => (drawn, [])
  | l :: ls =>
    let (drawn, goesOn) := drawLabel line drawn l
    let (drawn, pending) := drawLabels line drawn ls
    (drawn, if goesOn then l :: pending else pending)

/-- Draws the lines of a text with the labels below them. -/
def drawLines (drawn : List BodyLine) (labels : List Label) : List SourceLine → List BodyLine
  | [] => drawn.reverse
  | line :: lines =>
    let (drawn, pending) := drawLabels line (.source line [] :: drawn) labels
    drawLines drawn pending lines

/-- What is shown of lines of text before an underline with these bars: two or fewer as they are, of
more only the last, or the first four and the last two if there are more than eight. -/
def shorten (bars : List Bar) (lines : List BodyLine) : List BodyLine :=
  if lines.length ≤ 2 then lines
  else if lines.length ≤ 8 then .fold bars :: lines.drop (lines.length - 1)
  else lines.take 4 ++ .fold bars :: lines.drop (lines.length - 2)

/-- Leaves out lines of text far above the next underline, and those after the last. The lines in
`before` were read since the last underline. -/
def foldLines (before : List BodyLine) : List BodyLine → List BodyLine
  | [] => []
  | .underline a bars :: rest =>
    shorten bars before ++ .underline a bars :: foldLines [] rest
  | line :: rest => foldLines (before ++ [line]) rest

/-- The lines that are shown of a slice. -/
def Slice.body (s : Slice) : List BodyLine :=
  [.blank] ++ foldLines [] (drawLines [] s.labels (SourceLine.ofText s.content)) ++ [.blank]

/-- The line and column of the first label, counted from one, if its line is shown. -/
def Slice.position (s : Slice) : Nat × Nat :=
  let found := s.labels.head?.bind fun l =>
    (s.body.filterMap BodyLine.source?).findSome? fun line =>
      if line.start ≤ l.start && l.start ≤ line.stop then
        some (line.number, l.start - line.start + 1)
      else none
  found.getD (1, 1)

end Demand.Snippet
