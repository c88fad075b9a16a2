import Demand.Engine.Graph
import Demand.Engine.Recorder
import Demand.Engine.Registry
import Demand.Engine.Statistics
import Demand.Engine.Task

/-! The state of the engine, and the small steps that change it. -/

namespace Demand

/-- Debugging aids, all off by default. -/
structure Options where
  /-- Writes the active requests to the log when a cycle is found. -/
  dumpCycles : Bool := false
  /-- Keeps the dependency graph. -/
  buildGraph : Bool := false
  /-- Counts computations. -/
  collectStatistics : Bool := false
deriving DecidableEq, Repr

structure State (F : Family) where
  options : Options := {}
  registry : Registry F := {}
  cache : Tables F F.Output := {}
  recorder : Recorder F := {}
  diagnostics : Diagnostics := []
  statistics : Statistics := {}
  graph : Graph F.Request := {}
  log : Log := {}
  world : F.World

/-- Why the engine stops: a broken promise, or an evaluation deeper than it was allowed to be. -/
inductive Stop (F : Family) where
  | fault (f : Fault F)
  | exhausted

def Stop.message {F : Family} : Stop F → String
  | fault f => f.message
  | exhausted => "the evaluation is too deep"

/-- Steps of the engine. What was done before a stop stays done. -/
abbrev Eval (F : Family) (α : Type) : Type :=
  EStateM (Stop F) (State F) α

namespace Eval

variable {F : Family} {α : Type}

/-- Stops at a fault. -/
def ofExcept : Except (Fault F) α → Eval F α
  | .ok a => pure a
  | .error f => throw (.fault f)

/-- Writes to the log. -/
def log (level : LogLevel) (text : String) : Eval F Unit :=
  modify fun s => { s with log := s.log.write level text }

/-- Reports a diagnostic. -/
def report (d : Diagnostic) : Eval F Unit :=
  modify fun s => { s with diagnostics := s.diagnostics.report d }

/-- Changes the world and gives what it was. -/
def visit (change : F.World → F.World) : Eval F F.World :=
  modifyGet fun s => (s.world, { s with world := change s.world })

/-- Writes references into the innermost scope. -/
def write (refs : List Reference) : Eval F Unit :=
  modify fun s => { s with recorder := s.recorder.write refs }

/-- Writes the references of a scope into the innermost scope. -/
def merge (scope : Scope) : Eval F Unit :=
  modify fun s => { s with recorder := s.recorder.merge scope }

def openScope : Eval F Unit :=
  modify fun s => { s with recorder := s.recorder.openScope }

/-- Closes the scope of a request. -/
def closeScope (r : F.Request) : Eval F Unit := do
  let (scope, recorder) ← ofExcept ((← get).recorder.closeScope r)
  if !scope.isEmpty then
    log .trace s!"{F.text r} recorded {scope.length} reference(s)"
  modify fun s => { s with recorder := recorder }

/-- Writes what was recorded for a request into the innermost scope, if one is open. -/
def replayRecorded (r : F.Request) : Eval F Unit := do
  let recorder := (← get).recorder
  if !recorder.scopes.isEmpty then
    match ← ofExcept (recorder.recorded? r) with
    | some scope =>
      log .trace s!"replaying {scope.length} reference(s) of {F.text r}"
      merge scope
    | none => pure ()

/-- Files what was recorded for a request under a file. -/
def fileRecorded (r : F.Request) (file : FileId) : Eval F Unit := do
  log .trace s!"filing references of {F.text r} under {file.text}"
  match ← ofExcept ((← get).recorder.recorded? r) with
  | some scope => modify fun s => { s with recorder := s.recorder.fileUnder file scope }
  | none => pure ()

/-- Looks a result up in the cache of the engine. -/
def cached? (r : F.Request) : Eval F (Option (F.Output r)) := do
  ofExcept ((← get).cache.get? r)

/-- Puts a result into the cache of the engine. The table for it is made before anything is
checked. -/
def cacheResult (r : F.Request) (out : F.Output r) : Eval F Unit := do
  modify fun s => { s with cache := s.cache.provide (F.kind r) }
  let cache ← ofExcept ((← get).cache.insert r out)
  modify fun s => { s with cache := cache }

/-- Hands a result to the store outside the engine. -/
def storeResult (r : F.Request) (out : F.Output r) : Eval F Unit :=
  modify fun s => { s with world := F.store r out s.world }

/-- Counts a computation, if computations are counted. -/
def count (r : F.Request) : Eval F Unit :=
  modify fun s =>
    if s.options.collectStatistics then
      { s with statistics := s.statistics.count (F.typeIdOf r) (F.nameOf r) }
    else s

/-- Adds to the graph, if it is kept, that the innermost active request asks for `r`, or that `r` is
asked for from outside. -/
def recordEdge (stack : List F.Request) (r : F.Request) : Eval F Unit :=
  modify fun s =>
    if s.options.buildGraph then
      { s with graph :=
          match stack with
          | [] => s.graph.addRequest r
          | parent :: _ => s.graph.addDependency parent r }
    else s

/-- The active requests when `r` is found to depend on itself, for the log. -/
def cycleTrace (stack : List F.Request) (r : F.Request) : List String :=
  s!"cycle detected while evaluating {F.text r}" ::
    stack.map fun frame =>
      if frame = r then s!"  {F.text frame} (cycle starts here)" else s!"  {F.text frame}"

/-- What is reported when the active request `r` is found to depend on itself: its error, and a note
for each request that was asked for since, the innermost first. -/
def cycleReport (stack : List F.Request) (r : F.Request) : List Diagnostic :=
  F.cycleError r :: (stack.takeWhile fun frame => frame ≠ r).map F.cycleStep

/-- Reports that the active request `r` depends on itself. -/
def reportCycle (stack : List F.Request) (r : F.Request) : Eval F Unit :=
  modify fun s =>
    { s with
      log :=
        if s.options.dumpCycles then
          (cycleTrace stack r).foldl (fun log text => log.write .warning text) s.log
        else s.log
      diagnostics := s.diagnostics ++ cycleReport stack r }

end Eval

end Demand
