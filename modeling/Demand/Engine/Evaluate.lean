import Demand.Engine.State

/-! Evaluation: the result of a request, computed or served.

The active requests are those whose evaluation has begun and not ended; a request that is asked
for while it is active depends on itself and has no result. A result that is kept is computed once
and then served, and serving it writes the references that computing it wrote. -/

namespace Demand

/-- How the requests of a family are computed, and what their results write as references. -/
structure Rules (F : Family) where
  body : (r : F.Request) → Task F (F.Output r)
  /-- The references the result of a sink writes to whoever asks for it. -/
  sinkReferences : (r : F.Request) → F.Output r → List Reference := fun _ _ => []
  /-- What the world is told when the result of a sink writes them. -/
  sinkVisit : (r : F.Request) → F.Output r → F.World → F.World := fun _ _ w => w

/-- Runs a task for the innermost of the active requests. Each request it asks for is handed to
`evaluate`. -/
def Task.run {F : Family} {α : Type} (evaluate : (r : F.Request) → Eval F (Outcome F r))
    (stack : List F.Request) : Task F α → Eval F α
  | done a => pure a
  | ask r next => do (next (← evaluate r)).run evaluate stack
  | record ref next => do Eval.write [ref]; next.run evaluate stack
  | report d next => do Eval.report d; next.run evaluate stack
  | isActive r next => (next (r ∈ stack)).run evaluate stack
  | current next => (next stack.head?).run evaluate stack
  | log level text next => do Eval.log level text; next.run evaluate stack
  | visit change next => do (next (← Eval.visit change)).run evaluate stack

namespace Rules

variable {F : Family} (rules : Rules F)

/-- Writes the references of the result of a sink. -/
def writeSink (r : F.Request) (out : F.Output r) : Eval F Unit := do
  if (F.policyOf r).isSink then
    let _ ← Eval.visit (rules.sinkVisit r out)
    Eval.write (rules.sinkReferences r out)

/-- Writes what computing the result of a request would write. -/
def replay (r : F.Request) (out : F.Output r) : Eval F Unit := do
  Eval.replayRecorded r
  rules.writeSink r out

/-- Computes a request by running its body. -/
def compute (run : (r : F.Request) → Eval F (F.Output r)) (r : F.Request) :
    Eval F (F.Output r) := do
  Eval.ofExcept ((← get).registry.check (F.kind r))
  Eval.log .trace s!"computing {F.text r}"
  if F.opensScope r then Eval.openScope
  let out ← run r
  Eval.count r
  if F.opensScope r then Eval.closeScope r
  rules.writeSink r out
  return out

/-- Serves the result of a request where it is kept, or computes it and keeps it there. -/
def produce (run : (r : F.Request) → Eval F (F.Output r)) (r : F.Request) :
    Eval F (F.Output r) := do
  if !F.isKept r then
    rules.compute run r
  else if (F.policyOf r).isExternal then
    match F.fetch r (← get).world with
    | some out =>
      Eval.log .trace s!"external cache hit for {F.text r}"
      rules.replay r out
      return out
    | none =>
      let out ← rules.compute run r
      Eval.storeResult r out
      return out
  else
    match ← Eval.cached? r with
    | some out =>
      Eval.log .trace s!"cache hit for {F.text r}"
      rules.replay r out
      return out
    | none =>
      let out ← rules.compute run r
      Eval.cacheResult r out
      return out

/-- Files what a source recorded under its file. -/
def fileSource (r : F.Request) : Eval F Unit :=
  if (F.policyOf r).isSource then
    match F.sourceFile r with
    | some file => Eval.fileRecorded r file
    | none => pure ()
  else pure ()

/-- Evaluates a request inside the active ones, the innermost first. Each level of nested requests
takes one unit of `fuel`. -/
def evaluate : (fuel : Nat) → (stack : List F.Request) → (r : F.Request) → Eval F (Outcome F r)
  | 0, _, _ => throw .exhausted
  | fuel + 1, stack, r => do
    Eval.recordEdge stack r
    if r ∈ stack then
      Eval.reportCycle stack r
      return .error ⟨r⟩
    else
      let out ← rules.produce
        (fun q => (rules.body q).run (evaluate fuel (r :: stack)) (r :: stack)) r
      fileSource r
      return .ok out

end Rules

end Demand
