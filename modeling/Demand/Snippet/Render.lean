import Demand.Snippet.Body
import Demand.Text.Columns

/-! Snippets as text, plain or with the colours of a terminal. -/

namespace Demand.Snippet

/-- A label that reaches beyond the end of its text. -/
structure RangeError where
  start : Nat
  stop : Nat
  length : Nat
deriving DecidableEq, Repr

namespace RangeError

/-- Whether the label reaches beyond every position. -/
def overflows (e : RangeError) : Bool :=
  Span.lastPosition < e.stop

def message (e : RangeError) : String :=
  if e.overflows then Span.overflowMessage
  else s!"SourceAnnotation range `({e.start}, {e.stop})` is bigger than source length `{e.length}`"

end RangeError

/-- The labels of a slice that reach beyond the end of its text. -/
def Slice.rangeErrors (s : Slice) : List RangeError :=
  (s.labels.filter fun l => s.content.length < l.stop).map fun l =>
    ⟨l.start, l.stop, s.content.length⟩

inductive Style where
  | error | warning | lineNumber | emphasis
deriving DecidableEq, Repr

/-- What switches a terminal to the style. -/
def Style.code : Style → String
  | error => "\x1b[1;38;5;9m"
  | warning => "\x1b[1;38;5;11m"
  | lineNumber => "\x1b[1;38;5;12m"
  | emphasis => "\x1b[1m"

/-- What switches a terminal back. -/
def resetCode : String := "\x1b[0m"

def Style.ofSeverity : Severity → Style
  | .error => error
  | .warning => warning
  | .note => emphasis

/-- How a snippet is drawn: with colours or without, and the columns that line numbers and bars take
in all its slices. -/
structure Layout where
  color : Bool
  numberWidth : Nat
  barWidth : Nat

namespace Layout

/-- A text in a style. -/
def paint (o : Layout) (style : Style) (s : String) : String :=
  if o.color then style.code ++ s ++ resetCode else s

def paintSeverity (o : Layout) (severity : Severity) (s : String) : String :=
  o.paint (.ofSeverity severity) s

/-- The number of a line and the rule beside it. -/
def gutter (o : Layout) (number : Option Nat) : String :=
  let shown := match number with
    | some n => toString n
    | none => ""
  o.paint .lineNumber (Text.padLeft o.numberWidth shown ++ " |")

/-- The bars of a line at the right of their column. -/
def bars (o : Layout) (bs : List Bar) : String :=
  Text.spaces (o.barWidth - bs.length) ++
    String.join (bs.map fun b => o.paintSeverity b.severity (if b.isCorner then "/" else "|"))

/-- The column of bars, if the snippet has one. -/
def barColumn (o : Layout) (bs : List Bar) : String :=
  if o.barWidth = 0 then "" else " " ++ o.bars bs

/-- What is said about a place. A note says that it is one. -/
def label (o : Layout) (severity : Severity) (text : String) : String :=
  let inner := match severity with
    | .note => o.paintSeverity .note Severity.note.name ++ o.paintSeverity .note s!": {text}"
    | _ => text
  o.paintSeverity severity inner

/-- The line below a place, and what is said about it. -/
def underline (o : Layout) (a : Underline) : String :=
  let fill := if a.part = .whole then ' ' else '_'
  let tip := if a.severity = .error then '^' else '-'
  let drawn := List.replicate (a.first + 1) fill ++ List.replicate (a.last - a.first) tip
  o.paintSeverity a.severity (String.ofList drawn) ++
    (if a.text.isEmpty then "" else " " ++ o.label a.severity a.text)

def bodyLine (o : Layout) : BodyLine → String
  | .source line bs =>
    o.gutter (some line.number) ++ o.barColumn bs ++ " " ++ String.ofList line.chars
  | .underline a bs => o.gutter none ++ o.barColumn bs ++ o.underline a
  | .fold bs =>
    "..." ++ (if o.barWidth = 0 then "" else Text.spaces o.numberWidth ++ o.bars bs)
  | .blank => o.gutter none

/-- The line that says where a slice comes from. -/
def originLine (o : Layout) (arrow : String) (s : Slice) : String :=
  let (line, column) := s.position
  Text.spaces o.numberWidth ++ o.paint .lineNumber arrow ++ s!" {s.origin}:{line}:{column}"

def slice (o : Layout) (isFirst : Bool) (s : Slice) : List String :=
  o.originLine (if isFirst then "-->" else ":::") s :: s.body.map o.bodyLine

def title (o : Layout) (severity : Severity) (text : String) : String :=
  let level := o.paintSeverity severity severity.name
  if text.isEmpty then level else level ++ ": " ++ o.paint .emphasis text

/-- The lines of a footer. Those after the first stand below its text. -/
def footer (o : Layout) (f : Footer) : List String :=
  match (Text.lines f.text.toList).map fun l => String.ofList l.chars with
  | [] => []
  | first :: others =>
    let level := o.paintSeverity f.severity f.severity.name
    let text := if first.isEmpty then level else level ++ ": " ++ first
    (Text.spaces o.numberWidth ++ " " ++ o.paint .lineNumber "=" ++ " " ++ text) ::
      others.map fun l => Text.spaces (o.numberWidth + 3 + (f.severity.name.length + 2)) ++ l

end Layout

/-- The number of digits of the largest line number that is shown. -/
def numberWidth (s : Snippet) : Nat :=
  let numbers := s.slices.flatMap fun sl =>
    (sl.body.filterMap BodyLine.source?).map SourceLine.number
  match numbers.max? with
  | some n => (toString n).length
  | none => 0

/-- The largest number of bars on a line of text or below one. -/
def barWidth (s : Snippet) : Nat :=
  let widths := s.slices.flatMap fun sl => sl.body.map fun
    | .fold _ => 0
    | l => l.bars.length
  widths.max?.getD 0

def layout (color : Bool) (s : Snippet) : Layout where
  color := color
  numberWidth := s.numberWidth
  barWidth := s.barWidth

/-- The lines of a snippet whose labels lie in their texts. -/
def renderLines (color : Bool) (s : Snippet) : List String :=
  let o := s.layout color
  o.title s.severity s.title ::
    (s.slices.mapIdx fun i sl => o.slice (i == 0) sl).flatten ++ s.footers.flatMap o.footer

/-- The label for which a snippet cannot be drawn: the first that reaches beyond every position, or
else the first that reaches beyond its text. -/
def rangeError? (s : Snippet) : Option RangeError :=
  let errors := s.slices.flatMap Slice.rangeErrors
  (errors.find? RangeError.overflows).or errors.head?

/-- A snippet as text, without a line end after its last line. -/
def render (color : Bool) (s : Snippet) : Except RangeError String :=
  match s.rangeError? with
  | some e => .error e
  | none => .ok (String.intercalate "\n" (s.renderLines color))

end Demand.Snippet

namespace Demand

/-- The reports about diagnostics as texts. -/
def renderDiagnostics (color : Bool) (files : List SourceFile) (ds : List Diagnostic) :
    List (Except Snippet.RangeError String) :=
  (Report.ofList files ds).map fun r => (r.snippet files).render color

end Demand
