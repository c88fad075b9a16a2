import Demand.Engine.Evaluate

/-! Commands: what can be asked of an engine between evaluations. -/

namespace Demand

/-- A request with what asking for it gave. -/
structure Answer (F : Family) where
  request : F.Request
  outcome : Outcome F request

inductive Command (F : Family) where
  /-- Gives the computations for kinds of a zone. -/
  | register (zone : Zone) (kinds : List F.Kind)
  /-- Evaluates requests one after the other. -/
  | evaluate (rs : List F.Request)
  /-- Gives the result of a request, so that it is not computed. -/
  | put (r : F.Request) (out : F.Output r)
  /-- Asks whether the result of a request is kept. -/
  | isCached (r : F.Request)
  /-- Drops the result of a request and what was recorded for it. -/
  | clear (r : F.Request)
  /-- Drops every result and what was recorded for it. -/
  | clearCache
  /-- Asks for the references filed under a file. -/
  | references (file : FileId)
  | statistics
  /-- Draws the tree of requests below one. -/
  | dump (r : F.Request)
  /-- Draws the dependency graph. -/
  | graphviz
  | report (d : Diagnostic)
  | diagnostics
  /-- Asks for the diagnostics and drops them. -/
  | takeDiagnostics

inductive Reply (F : Family) where
  | done
  | registered (zone : Zone) (size : Nat)
  | answers (as : List (Answer F))
  | flag (b : Bool)
  | references (refs : List Reference)
  | statistics (entries : List KindStatistics)
  | text (s : String)
  | diagnostics (ds : List Diagnostic)

namespace Rules

variable {F : Family} (rules : Rules F)

/-- Evaluates requests from outside, one after the other. -/
def evaluateAll (fuel : Nat) : List F.Request → Eval F (List (Answer F))
  | [] => pure []
  | r :: rs => do
    let outcome ← rules.evaluate fuel [] r
    return ⟨r, outcome⟩ :: (← evaluateAll fuel rs)

end Rules

namespace Eval

variable {F : Family}

/-- Adds the computations of a zone. -/
def register (zone : Zone) (kinds : List F.Kind) : Eval F (ZoneRules F) := do
  let rules ← ofExcept (ZoneRules.ofKinds zone kinds)
  let registry ← ofExcept ((← get).registry.install rules)
  log .debug s!"registered {rules.size} request function(s) in zone {zone.name}"
  modify fun s => { s with registry := registry }
  return rules

/-- Gives the result of a request. -/
def putResult (r : F.Request) (out : F.Output r) : Eval F Unit := do
  if !(F.policyOf r).keeps then throw (.fault (.neverCached r))
  if !F.isKept r then throw (.fault (.optedOut r))
  log .trace s!"caching output of {F.text r} by hand"
  if (F.policyOf r).isExternal then storeResult r out else cacheResult r out

/-- Drops the result of a request, and tells whether it had one. A result in a store outside the
engine stays, and with it what was recorded. -/
def clearResult (r : F.Request) : Eval F Bool := do
  if (F.policyOf r).isExternal then return false
  let recorder ← ofExcept ((← get).recorder.forget r)
  modify fun s => { s with recorder := recorder }
  let (had, cache) ← ofExcept ((← get).cache.erase r)
  modify fun s => { s with cache := cache }
  return had

def hasResult (r : F.Request) : Eval F Bool := do
  if !F.isKept r then return false
  else if (F.policyOf r).isExternal then return (F.fetch r (← get).world).isSome
  else return (← cached? r).isSome

/-- Drops every result in the cache of the engine, and everything recorded. -/
def clearCache : Eval F Unit := do
  let size := (← get).cache.size
  log .debug s!"clearing {size} cached result(s)"
  modify fun s => { s with cache := s.cache.clear, recorder := s.recorder.forgetAll }

/-- Draws the dependency graph. -/
def graphviz : Eval F String := do
  let graph := (← get).graph
  log .debug s!"rendering {graph.size} request(s) as graphviz"
  return graph.graphviz F.text

end Eval

/-- Carries out a command. Evaluations may nest `fuel` requests. -/
def Command.run {F : Family} (rules : Rules F) (fuel : Nat) : Command F → Eval F (Reply F)
  | register zone kinds => do return .registered zone (← Eval.register zone kinds).size
  | evaluate rs => do return .answers (← rules.evaluateAll fuel rs)
  | put r out => do Eval.putResult r out; return .done
  | isCached r => do return .flag (← Eval.hasResult r)
  | clear r => do return .flag (← Eval.clearResult r)
  | clearCache => do Eval.clearCache; return .done
  | references file => do return .references (Reference.sort ((← get).recorder.filed file))
  | statistics => do return .statistics (← get).statistics.entries
  | dump r => do return .text ((← get).graph.dump F.text r)
  | graphviz => do return .text (← Eval.graphviz)
  | report d => do Eval.report d; return .done
  | diagnostics => do return .diagnostics (← get).diagnostics
  | takeDiagnostics => do
    let ds := (← get).diagnostics
    modify fun s => { s with diagnostics := [] }
    return .diagnostics ds

end Demand
