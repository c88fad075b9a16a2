import Demand.Request.Family

/-! Handles: a request of any kind, or one of two markers for a place in a table that has none. -/

namespace Demand

inductive Handle (F : Family) where
  /-- A place that was never used. -/
  | empty
  /-- A place whose request was removed. -/
  | tombstone
  | request (r : F.Request)
deriving DecidableEq

namespace Handle

variable {F : Family}

def request? : Handle F → Option F.Request
  | request r => some r
  | _ => none

def isMarker (h : Handle F) : Bool :=
  h.request?.isNone

def typeId? (h : Handle F) : Option TypeId :=
  h.request?.map F.typeIdOf

def name? (h : Handle F) : Option String :=
  h.request?.map F.nameOf

/-- The request, if it is of the kind. -/
def ofKind? (h : Handle F) (k : F.Kind) : Option F.Request :=
  h.request?.filter fun r => F.kind r = k

def text : Handle F → String
  | empty => "<empty>"
  | tombstone => "<tombstone>"
  | request r => F.text r

/-- `AnyRequest(RequestTypeId(Testing:0), Cached("a"))` or `AnyRequest(<empty>)`. -/
def tag : Handle F → String
  | request r => s!"AnyRequest{F.tagged r}"
  | h => s!"AnyRequest({h.text})"

/-- The error and the note about a cycle through the request; a marker has neither. -/
def cycleReport (h : Handle F) : List Diagnostic :=
  match h.request? with
  | some r => [F.cycleError r, F.cycleStep r]
  | none => []

/-- `cyclical request: R`. -/
def cyclicalMessage (h : Handle F) : String :=
  s!"cyclical request: {h.text}"

end Handle

/-- `ActiveRequest(RequestTypeId(Testing:0), Cached("a"))`: a request that is being evaluated. -/
def Family.activeTag (F : Family) (r : F.Request) : String :=
  s!"ActiveRequest{F.tagged r}"

end Demand
