import Demand.Diagnostic.Basic
import Demand.Source.File

/-! Reports: an error or warning together with the notes that belong to it.

A note belongs to what was reported before it. A report has a title, labels at places in source
texts and footers; what is said about a place that cannot be shown becomes a footer. -/

namespace Demand

/-- A diagnostic and the notes that follow it. -/
structure DiagnosticGroup where
  head : Diagnostic
  notes : List Diagnostic
deriving DecidableEq, Repr

namespace DiagnosticGroup

/-- The diagnostics of the group in order. -/
def toList (g : DiagnosticGroup) : List Diagnostic :=
  g.head :: g.notes

/-- The notes that stand first, and the groups after them. -/
def split : List Diagnostic → List Diagnostic × List DiagnosticGroup
  | [] => ([], [])
  | d :: ds =>
    let (notes, groups) := split ds
    if d.severity = .note then (d :: notes, groups) else ([], ⟨d, notes⟩ :: groups)

/-- The groups of diagnostics in order. Notes that come before anything else are a group of their
own, headed by the first. -/
def ofList (ds : List Diagnostic) : List DiagnosticGroup :=
  match split ds with
  | ([], groups) => groups
  | (d :: notes, groups) => ⟨d, notes⟩ :: groups

end DiagnosticGroup

/-- What is said about a place. -/
structure Label where
  severity : Severity
  location : Location
  text : Option String
deriving DecidableEq, Repr

/-- What is said below everything else. -/
structure Footer where
  severity : Severity
  text : String
deriving DecidableEq, Repr

structure Report where
  severity : Severity
  title : String
  labels : List Label := []
  footers : List Footer := []
deriving DecidableEq, Repr

namespace Report

def findFile (files : List SourceFile) (id : FileId) : Option SourceFile :=
  files.find? fun f => f.id = id

/-- The name of a file, or its number if it is not among the files. -/
def origin (files : List SourceFile) (id : FileId) : String :=
  match findFile files id with
  | some f => f.name
  | none => id.text

/-- Says something about a place: below the text there if the span is not empty and the file is
known, and in a footer if not. -/
def addLabel (files : List SourceFile) (r : Report) (l : Label) : Report :=
  if l.location.span.isEmpty || (findFile files l.location.file).isNone then
    let place := origin files l.location.file
    let text :=
      match l.text with
      | some t => s!"{t} (in {place})"
      | none => s!"in {place}"
    { r with footers := r.footers ++ [⟨l.severity, text⟩] }
  else { r with labels := r.labels ++ [l] }

/-- Adds a note: at its place, or as a footer. -/
def addNote (files : List SourceFile) (r : Report) (d : Diagnostic) : Report :=
  match d.location with
  | some l => r.addLabel files ⟨.note, l, some d.message⟩
  | none => { r with footers := r.footers ++ [⟨.note, d.message⟩] }

/-- The report about the head of a group, without its notes. -/
def ofHead (files : List SourceFile) (d : Diagnostic) : Report :=
  let r : Report := { severity := d.severity, title := d.message }
  match d.location with
  | some l => r.addLabel files ⟨d.severity, l, none⟩
  | none => r

def ofGroup (files : List SourceFile) (g : DiagnosticGroup) : Report :=
  g.notes.foldl (addNote files) (ofHead files g.head)

/-- The reports about diagnostics in order. -/
def ofList (files : List SourceFile) (ds : List Diagnostic) : List Report :=
  (DiagnosticGroup.ofList ds).map (ofGroup files)

end Report

end Demand
