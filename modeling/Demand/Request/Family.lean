import Demand.Diagnostic.Basic
import Demand.Request.Policy
import Demand.Request.TypeId

/-! Families of requests.

A request asks for one result. A family says what its requests are, of what kind each is and what
its result is, and holds what the engine has to know of a request besides how to compute it: its
text, whether its result may be kept, where to point when it depends on itself, the store of
results outside the engine, and the file its references are filed under. -/

namespace Demand

/-- A family of requests. The `World` is the state outside the engine that its requests work on:
results kept elsewhere, counters, a record of events. -/
structure Family where
  Request : Type
  Kind : Type
  Output : Request → Type
  World : Type
  [requestEq : DecidableEq Request]
  [kindEq : DecidableEq Kind]
  kind : Request → Kind
  typeId : Kind → TypeId
  kindName : Kind → String
  policy : Kind → Policy
  text : Request → String
  /-- Whether the result of this very request may be kept, if results of its kind are. -/
  admits : Request → Bool
  location : Request → Option Location
  cycleMessage : Request → String
  stepMessage : Request → String
  /-- The result in the store outside the engine. -/
  fetch : (r : Request) → World → Option (Output r)
  /-- Hands a result to the store outside the engine. -/
  store : (r : Request) → Output r → World → World
  /-- The file that the references of a source are filed under. -/
  sourceFile : Request → Option FileId

attribute [instance] Family.requestEq Family.kindEq

/-- What a request that depends on itself is called unless its family says otherwise. -/
def defaultCycleMessage : String :=
  "circular reference"

/-- What a request on the way of a cycle is called unless its family says otherwise. -/
def defaultStepMessage (text : String) : String :=
  s!"circular reference through `{text}`"

namespace Family

variable (F : Family)

def policyOf (r : F.Request) : Policy :=
  F.policy (F.kind r)

def typeIdOf (r : F.Request) : TypeId :=
  F.typeId (F.kind r)

def nameOf (r : F.Request) : String :=
  F.kindName (F.kind r)

/-- Whether the result of the request is kept. -/
def isKept (r : F.Request) : Bool :=
  (F.policyOf r).keeps && F.admits r

/-- Whether a computation of the request collects references of its own: those of a result that is
kept are needed again when it is served, those of a source are filed. -/
def opensScope (r : F.Request) : Bool :=
  F.isKept r || (F.policyOf r).isSource

/-- The error that says a request depends on itself. -/
def cycleError (r : F.Request) : Diagnostic :=
  .error (F.location r) (F.cycleMessage r)

/-- The note that names a request on the way of a cycle. -/
def cycleStep (r : F.Request) : Diagnostic :=
  .note (F.location r) (F.stepMessage r)

/-- `(RequestTypeId(Testing:0), Cached("a"))`: a request with the number of its kind. -/
def tagged (r : F.Request) : String :=
  s!"({(F.typeIdOf r).tag}, {F.text r})"

end Family

/-- Why an evaluation has no result: the request is being evaluated already. -/
structure Cyclical (F : Family) where
  request : F.Request

/-- `cyclical request: R`. -/
def Cyclical.message {F : Family} (c : Cyclical F) : String :=
  s!"cyclical request: {F.text c.request}"

/-- What asking for a request gives. -/
abbrev Outcome (F : Family) (r : F.Request) : Type :=
  Except (Cyclical F) (F.Output r)

/-- The result, or a default for a request that depends on itself. -/
def Outcome.getD {F : Family} {r : F.Request} (o : Outcome F r) (d : F.Output r) : F.Output r :=
  match o with
  | .ok out => out
  | .error _ => d

end Demand
