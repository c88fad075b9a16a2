import Demand.Compiler.Problem
import Demand.Engine.Evaluate

/-! How the requests of the compiler are computed. -/

namespace Demand.Compiler

open Demand.Language

/-- Reports a problem of a file. -/
def reportProblem (file : SourceFile) (p : Problem) : Task family Unit :=
  Task.reportAll (p.diagnostics file)

/-- The declarations of a text, or what is wrong with it. -/
def readDeclarations (text : String) : Except Problem (List Declaration) :=
  match lex text with
  | .error e => .error (.lexical e)
  | .ok tokens =>
    match parse tokens with
    | .error e => .error (.grammatical e)
    | .ok ds => .ok ds

/-- Reads a file. -/
def parseModule (file : SourceFile) : Task family (Option (List Definition)) := do
  Task.say .trace s!"parsing {file.name}"
  match readDeclarations file.content with
  | .error p =>
    reportProblem file p
    return none
  | .ok ds =>
    .visit (fun w => ⟨w.readings + 1⟩) fun w =>
      return some (ds.map fun d => ⟨w.readings, file, d⟩)

/-- Finds the definition of a name. -/
def lookup (file : SourceFile) (name : String) : Task family (Option Definition) := do
  let ds? ← Task.evaluateD (F := family) (.parseModule file) none
  return ds?.bind fun ds => Definition.find? ds name

/-- The integer, if it has 64 bits. -/
def fitting (n : Int) : Option Int :=
  if -9223372036854775808 ≤ n ∧ n ≤ 9223372036854775807 then some n else none

/-- The result of the operation at a place, which has to fit. -/
def settle (file : SourceFile) (span : Span) (n : Int) : Task family (Option Int) :=
  match fitting n with
  | some n => return some n
  | none => do
    reportProblem file (.overflow span)
    return none

/-- The value of an expression in a file. Both operands are looked at, also if the first has no
value. -/
def fold (file : SourceFile) : Expr → Task family (Option Int)
  | .integer v _ => return some v
  | .name n span => do
    match ← Task.evaluateD (F := family) (.lookup file n) none with
    | some d => Task.evaluateD (F := family) (.value d) none
    | none =>
      reportProblem file (.unknownName n span)
      return none
  | .negate e span => do
    match ← fold file e with
    | some v => settle file span (-v)
    | none => return none
  | .binary op l r span => do
    let a ← fold file l
    let b ← fold file r
    match a, b with
    | some a, some b => settle file span (op.apply a b)
    | _, _ => return none

/-- The value of a definition. -/
def value (d : Definition) : Task family (Option Int) := do
  Task.say .trace s!"folding `{d.name}`"
  fold d.file d.declaration.value

/-- Looks at definitions one after the other: each has to be the first of its name among `all` and
to have a value. -/
def checkAll (file : SourceFile) (all : List Definition) : List Definition → Task family Bool
  | [] => return true
  | d :: ds => do
    let ok ← match (Definition.find? all d.name).filter fun first => first ≠ d with
      | some first => do
        reportProblem file (.duplicate d.declaration first.declaration)
        pure false
      | none => do
        let v : Option Int ← Task.evaluateD (F := family) (.value d) none
        pure v.isSome
    let rest ← checkAll file all ds
    return ok && rest

/-- Looks at all definitions of a file. -/
def check (file : SourceFile) : Task family Bool := do
  Task.say .debug s!"checking {file.name}"
  match ← Task.evaluateD (F := family) (.parseModule file) none with
  | some ds => checkAll file ds ds
  | none => return false

/-- The code for one definition. -/
def globalLine (d : Definition) (v : Int) : String :=
  s!"@{d.name} = global i64 {v}\n"

/-- The code for definitions one after the other, if all have a value. -/
def emitAll : List Definition → Task family (Option String)
  | [] => return some ""
  | d :: ds => do
    match ← Task.evaluateD (F := family) (.value d) none with
    | none => return none
    | some v => return (← emitAll ds).map fun rest => globalLine d v ++ rest

/-- The code for a file. -/
def emit (file : SourceFile) : Task family (Option String) := do
  let ok ← Task.evaluate (F := family) (.check file)
  let ds ← Task.evaluate (F := family) (.parseModule file)
  match ok, ds with
  | .ok true, .ok (some ds) =>
    return (← emitAll ds).map fun code => s!"; ModuleID = '{file.name}'\n" ++ code
  | _, _ => return none

/-- How the requests of the compiler are computed. A lookup refers to its name, found or not. -/
def rules : Rules family where
  body
    | .parseModule file => parseModule file
    | .lookup file name => lookup file name
    | .value d => value d
    | .check file => check file
    | .emit file => emit file
  sinkReferences
    | .lookup _ name, _ => [.topLevel name]
    | _, _ => []

end Demand.Compiler
