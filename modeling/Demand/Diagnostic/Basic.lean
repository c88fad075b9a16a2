import Demand.Source.Span

/-! Diagnostics: what is reported about a program, in the order of reporting. -/

namespace Demand

/-- How bad a report is. A note adds to the report before it. -/
inductive Severity where
  | error | warning | note
deriving DecidableEq, Repr

def Severity.name : Severity → String
  | error => "error"
  | warning => "warning"
  | note => "note"

structure Diagnostic where
  severity : Severity
  location : Option Location
  message : String
deriving DecidableEq, Repr

namespace Diagnostic

/-- `error: message (file#0@4..5)`, without the brackets if there is no location. -/
def text? (d : Diagnostic) : Option String :=
  match d.location with
  | some l => l.text?.map fun place => s!"{d.severity.name}: {d.message} ({place})"
  | none => some s!"{d.severity.name}: {d.message}"

def isError (d : Diagnostic) : Bool :=
  d.severity == .error

def error (location : Option Location) (message : String) : Diagnostic :=
  ⟨.error, location, message⟩

def warning (location : Option Location) (message : String) : Diagnostic :=
  ⟨.warning, location, message⟩

def note (location : Option Location) (message : String) : Diagnostic :=
  ⟨.note, location, message⟩

end Diagnostic

/-- The reports so far, the oldest first. -/
abbrev Diagnostics : Type := List Diagnostic

namespace Diagnostics

/-- Adds a report. -/
def report (ds : Diagnostics) (d : Diagnostic) : Diagnostics :=
  ds ++ [d]

/-- The texts of the reports, if all have one. -/
def texts? (ds : Diagnostics) : Option (List String) :=
  ds.mapM Diagnostic.text?

/-- Whether an error is among the reports. -/
def hasErrors (ds : Diagnostics) : Bool :=
  ds.any Diagnostic.isError

end Diagnostics

end Demand
