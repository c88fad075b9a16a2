import Demand.Engine.Tables
import Demand.FirstSeen
import Demand.Reference

/-! The recorder: which references the computations of requests wrote.

While a computation runs that collects references, it has a scope, and what is written goes into
the innermost one. When it ends, its scope is kept with the request, so that serving the result
again can write the same references, and is added to the scope around it. The references kept for
a source are filed under its file. -/

namespace Demand

/-- References without repetition. -/
abbrev Scope : Type := List Reference

structure Recorder (F : Family) where
  /-- The open scopes, the innermost first. -/
  scopes : List Scope := []
  /-- What the last computation of a request wrote, if it wrote anything. -/
  recorded : Tables F (fun _ => Scope) := {}
  /-- What is filed under each file. -/
  filed : FileId → Scope := fun _ => []

namespace Recorder

variable {F : Family}

/-- Writes references into the innermost scope, if one is open. -/
def write (m : Recorder F) (refs : List Reference) : Recorder F :=
  match m.scopes with
  | [] => m
  | scope :: outer => { m with scopes := FirstSeen.addAll scope refs :: outer }

/-- Writes the references of another scope into the innermost scope, if one is open. -/
def merge (m : Recorder F) (refs : Scope) : Recorder F :=
  match m.scopes with
  | [] => m
  | scope :: outer => { m with scopes := FirstSeen.union scope refs :: outer }

def openScope (m : Recorder F) : Recorder F :=
  { m with scopes := [] :: m.scopes }

/-- What was recorded for a request. -/
def recorded? (m : Recorder F) (r : F.Request) : Except (Fault F) (Option Scope) :=
  m.recorded.get? r

/-- Forgets what was recorded for a request. -/
def forget (m : Recorder F) (r : F.Request) : Except (Fault F) (Recorder F) := do
  return { m with recorded := (← m.recorded.erase r).2 }

/-- Forgets what was recorded for every request. What is filed stays. -/
def forgetAll (m : Recorder F) : Recorder F :=
  { m with recorded := m.recorded.clear }

/-- Closes the innermost scope for the request whose computation opened it and gives what was
written. A request that wrote nothing has nothing recorded. -/
def closeScope (m : Recorder F) (r : F.Request) : Except (Fault F) (Scope × Recorder F) :=
  match m.scopes with
  | [] => .error (.noScope r)
  | scope :: outer => do
    let m := { m with scopes := outer }
    if scope.isEmpty then
      return (scope, ← m.forget r)
    else
      let m := m.merge scope
      return (scope, { m with recorded := ← m.recorded.put r scope })

/-- Files references under a file, with those that are there. -/
def fileUnder (m : Recorder F) (file : FileId) (refs : Scope) : Recorder F :=
  { m with filed := fun f =>
      if f = file then FirstSeen.union (m.filed f) refs else m.filed f }

theorem mem_filed_fileUnder {m : Recorder F} {f g : FileId} {refs : Scope} {ref : Reference} :
    ref ∈ (m.fileUnder f refs).filed g ↔ ref ∈ m.filed g ∨ (g = f ∧ ref ∈ refs) := by
  unfold fileUnder
  by_cases h : g = f <;> simp [h]

end Recorder

end Demand
