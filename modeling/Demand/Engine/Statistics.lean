import Demand.Duration
import Demand.Request.TypeId
import Demand.Text.Columns

/-! Statistics: how often the requests of each kind were computed. -/

namespace Demand

/-- The computations of one kind of request, and the time they took. -/
structure KindStatistics where
  typeId : TypeId
  name : String
  evaluations : Nat
  elapsed : Duration
deriving DecidableEq, Repr

/-- A line of three columns: the name, the number of computations and the time. -/
def KindStatistics.line (s : KindStatistics) : String :=
  Text.padRight 24 s.name ++ " " ++ Text.padLeft 8 (toString s.evaluations) ++ " " ++
    Text.padLeft 12 s.elapsed.text

/-- One entry for each number of a kind that was computed, sorted by number. The engine reads no
clock, so its times are zero. -/
structure Statistics where
  entries : List KindStatistics := []
deriving DecidableEq, Repr

namespace Statistics

/-- Counts a computation, in an entry at its place. The name is that of the first computation under
the number. -/
def countIn (id : TypeId) (name : String) : List KindStatistics → List KindStatistics
  | [] => [⟨id, name, 1, ⟨0⟩⟩]
  | s :: rest =>
    if s.typeId = id then { s with evaluations := s.evaluations + 1 } :: rest
    else if id.code < s.typeId.code then ⟨id, name, 1, ⟨0⟩⟩ :: s :: rest
    else s :: countIn id name rest

def count (s : Statistics) (id : TypeId) (name : String) : Statistics :=
  ⟨countIn id name s.entries⟩

/-- How often the requests under a number were computed. -/
def evaluations (s : Statistics) (id : TypeId) : Nat :=
  match s.entries.find? fun e => e.typeId = id with
  | some e => e.evaluations
  | none => 0

end Statistics

end Demand
