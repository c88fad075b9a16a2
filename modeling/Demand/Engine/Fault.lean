import Demand.Request.Family

/-! Faults: broken promises of whoever uses the engine. -/

namespace Demand

/-- What was promised and not kept. -/
inductive Fault (F : Family) where
  /-- Two kinds share the number of a kind, and the other one has results under it. -/
  | sharedTypeId (k : F.Kind)
  /-- A result is given for a request that has one. -/
  | alreadyCached (r : F.Request)
  /-- A result is given for a request of a kind whose results are not kept. -/
  | neverCached (r : F.Request)
  /-- A result is given for a request whose result is not kept. -/
  | optedOut (r : F.Request)
  /-- A request is computed before the computations of its zone are known. -/
  | zoneUnknown (k : F.Kind)
  /-- The computation known under the number of the kind is that of another kind. -/
  | otherKindRegistered (k : F.Kind)
  /-- The zone is known but has no computation for the kind. -/
  | notRegistered (k : F.Kind)
  /-- The computations of a zone are given a second time. -/
  | zoneTwice (z : Zone)
  /-- Two computations of a zone are given for the same number. -/
  | typeIdTwice (k : F.Kind)
  /-- A computation is given for a zone that its kind does not belong to. -/
  | wrongZone (k : F.Kind) (z : Zone)
  /-- A computation ends without a scope for its references. -/
  | noScope (r : F.Request)

namespace Fault

variable {F : Family}

def message : Fault F → String
  | sharedTypeId k =>
    s!"request type id {(F.typeId k).text} of `{F.kindName k}` is already used by another request type"
  | alreadyCached r => s!"request `{F.text r}` was already cached"
  | neverCached r => s!"cannot cache the output of uncached request `{F.text r}`"
  | optedOut r => s!"cannot cache the output of request `{F.text r}`, which opted out of caching"
  | zoneUnknown k =>
    s!"`{F.kindName k}` was evaluated before zone {(F.typeId k).zone.name} was registered"
  | otherKindRegistered k =>
    s!"request type id {(F.typeId k).text} of `{F.kindName k}` is registered for another request type"
  | notRegistered k => s!"no request function is registered for `{F.kindName k}`"
  | zoneTwice z => s!"zone {z.name} is registered twice"
  | typeIdTwice k => s!"request type id {(F.typeId k).text} of `{F.kindName k}` is registered twice"
  | wrongZone k z =>
    s!"assertion `left == right` failed: `{F.kindName k}` cannot be registered in zone {z.name}\n" ++
      s!"  left: {(F.typeId k).zone.name}\n right: {z.name}"
  | noScope r => s!"no dependency scope is open for `{F.text r}`"

end Fault

end Demand
