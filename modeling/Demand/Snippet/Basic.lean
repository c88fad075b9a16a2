import Demand.Diagnostic.Report
import Demand.FirstSeen

/-! Snippets: reports with the texts that their labels are drawn in. -/

namespace Demand

/-- A stretch of a text, from its first position to the one after its last, and what is said about
it. -/
structure Snippet.Label where
  start : Nat
  stop : Nat
  severity : Severity
  text : String
deriving DecidableEq, Repr

/-- A text, where it comes from, and its labels. -/
structure Snippet.Slice where
  content : List Char
  origin : String
  labels : List Snippet.Label
deriving DecidableEq, Repr

structure Snippet where
  severity : Severity
  title : String
  slices : List Snippet.Slice
  footers : List Footer
deriving DecidableEq, Repr

namespace Report

/-- The files with labels, in the order of their first label. -/
def labelledFiles (r : Report) : List FileId :=
  FirstSeen.ofList (r.labels.map fun l => l.location.file)

/-- The text of a file with the labels in it. -/
def slice (r : Report) (f : SourceFile) : Snippet.Slice where
  content := f.content.toList
  origin := f.name
  labels := (r.labels.filter fun l => l.location.file = f.id).map fun l =>
    ⟨l.location.span.start, l.location.span.stop, l.severity, l.text.getD ""⟩

/-- The report with the texts of the files that its labels are in. -/
def snippet (files : List SourceFile) (r : Report) : Snippet where
  severity := r.severity
  title := r.title
  slices := (r.labelledFiles.filterMap (findFile files)).map r.slice
  footers := r.footers

end Report

end Demand
