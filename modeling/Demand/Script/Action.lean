import Demand.Engine.Command
import Demand.Script.Request

/-! Scripts: what scripted requests do when they are computed.

A script gives each kind and key a list of actions. The result of a request is the total its
actions add up, or the length of its key in bytes if it has no script. -/

namespace Demand.Script

inductive Action where
  /-- Adds a number to the total. -/
  | add (n : Int64)
  /-- Adds the result of a request, or the default if it depends on itself. -/
  | evaluate (r : Request) (default : Int64)
  /-- Adds the result of a request, if it has one. -/
  | attempt (r : Request)
  /-- Adds the result of a request; if it has none, the total becomes -1 and nothing follows. -/
  | need (r : Request)
  /-- Evaluates all requests, then adds their results. -/
  | batch (rs : List Request)
  | record (ref : Reference)
  | report (d : Diagnostic)
  /-- Tells whether a request is active. -/
  | isActive (r : Request)
  /-- Tells which request is computed. -/
  | current
  /-- Goes on with the first list if the request is active and with the second if not. -/
  | ifActive (r : Request) (yes no : List Action)

/-- The script of a kind and key: its actions, and the references it writes as a sink, if they are
not the default. -/
structure Entry where
  actions : List Action := []
  sink : Option (List Reference) := none

abbrev Table : Type := List ((Kind × String) × Entry)

/-- The total so far, and whether the actions end here. -/
structure Tally where
  total : Int64
  ended : Bool := false

/-- Logs an event. -/
def event (text : String) : Task family Unit :=
  Task.change fun w => w.log text

/-- Adds the result of a request, or logs that it has none. -/
def addOutcome (total : Int64) {r : Request} : Outcome family r → Task family Int64
  | .ok value => pure (total + value)
  | .error c => do
    event c.message
    return total

/-- Evaluates requests one after the other. -/
def evaluateAll : List Request → Task family (List (Answer family))
  | [] => pure []
  | r :: rs => do
    let o ← Task.evaluate (F := family) r
    return ⟨r, o⟩ :: (← evaluateAll rs)

def addAnswers (total : Int64) : List (Answer family) → Task family Int64
  | [] => pure total
  | a :: rest => do addAnswers (← addOutcome total a.outcome) rest

mutual

def Action.perform (total : Int64) : Action → Task family Tally
  | add n => pure ⟨total + n, false⟩
  | evaluate r d => do
    let value : Int64 ← Task.evaluateD (F := family) r d
    return ⟨total + value, false⟩
  | attempt r => do return ⟨← addOutcome total (← Task.evaluate (F := family) r), false⟩
  | need r => do
    match ← Task.evaluate (F := family) r with
    | .ok value => return ⟨total + value, false⟩
    | .error _ => return ⟨-1, true⟩
  | batch rs => do return ⟨← addAnswers total (← evaluateAll rs), false⟩
  | record ref => .record ref (pure ⟨total, false⟩)
  | report d => .report d (pure ⟨total, false⟩)
  | isActive r => .isActive r fun b => do
    event s!"active {r.text} = {b}"
    return ⟨total, false⟩
  | current => .current fun r? => do
    match r? with
    | some r => event s!"current {family.activeTag r} {family.nameOf r}"
    | none => pure ()
    return ⟨total, false⟩
  | ifActive r yes no => .isActive r fun b =>
    if b then Action.performAll total yes else Action.performAll total no

def Action.performAll (total : Int64) : List Action → Task family Tally
  | [] => pure ⟨total, false⟩
  | a :: rest => do
    let t ← a.perform total
    if t.ended then return t else Action.performAll t.total rest

end

mutual

/-- The requests an action mentions. -/
def Action.requests : Action → List Request
  | evaluate r _ | attempt r | need r | isActive r => [r]
  | batch rs => rs
  | ifActive r yes no => r :: (Action.requestsOf yes ++ Action.requestsOf no)
  | _ => []

def Action.requestsOf : List Action → List Request
  | [] => []
  | a :: rest => a.requests ++ Action.requestsOf rest

end

namespace Table

def find? (t : Table) (r : Request) : Option Entry :=
  t.lookup (r.kind, r.key)

/-- Replaces the script of a kind and key, or removes it. -/
def edit (t : Table) (place : Kind × String) (entry : Option Entry) : Table :=
  let others := t.filter fun e => e.1 ≠ place
  match entry with
  | some e => (place, e) :: others
  | none => others

/-- The requests that the table mentions. -/
def requests (t : Table) : List Request :=
  t.flatMap fun e => Action.requestsOf e.2.actions

/-- How deep evaluations nest at most: the request that is asked for, each request that the table
mentions, and the one that closes a cycle. -/
def depth (t : Table) : Nat :=
  t.requests.length + 2

/-- The total of a request. -/
def total (t : Table) (r : Request) : Task family Int64 :=
  match t.find? r with
  | none => pure (Int64.ofNat r.key.utf8ByteSize)
  | some e => do return (← Action.performAll 0 e.actions).total

/-- The references that the result of a request writes: those of its script, or the name of its
key. -/
def sinkReferences (t : Table) (r : Request) : List Reference :=
  if r.isHooked then
    match (t.find? r).bind Entry.sink with
    | some refs => refs
    | none => [.topLevel r.key]
  else []

/-- How the requests are computed by the scripts of the table. -/
def rules (t : Table) : Rules family where
  body r := do
    event s!"run {r.text}"
    let total ← t.total r
    event s!"done {r.text} = {total.toInt}"
    return total
  sinkReferences r _ := t.sinkReferences r
  sinkVisit r out w := if r.isHooked then w.log s!"sink {r.text} = {out.toInt}" else w

end Table

end Demand.Script
