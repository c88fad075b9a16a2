import Demand.Source.Span

/-! Source files. -/

namespace Demand

/-- A source text with its name and its number. Two files may share a name and a text; the
number tells them apart. -/
structure SourceFile where
  id : FileId
  name : String
  content : String
deriving DecidableEq, Repr

namespace SourceFile

/-- A place in the file. -/
def locate (f : SourceFile) (s : Span) : Location :=
  ⟨f.id, s⟩

/-- The span to point at when the text ends too early: its last character, or nothing if there
is none. -/
def endSpan (f : SourceFile) : Span :=
  match f.content.length with
  | 0 => Span.empty
  | n + 1 => ⟨n, 1⟩

/-- The files with these names and texts, numbered in order. -/
def number (files : List (String × String)) : List SourceFile :=
  files.mapIdx fun i f => ⟨⟨i⟩, f.1, f.2⟩

end SourceFile

end Demand
