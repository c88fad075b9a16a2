import Demand.Engine.Stepper
import Demand.Script.Action

/-! Sessions of scripted requests: steps on one engine whose scripts can change in between. -/

namespace Demand.Script

/-- The scripts, and the engine. -/
structure Session where
  table : Table := []
  state : State family

inductive Step where
  | command (c : Command family)
  /-- Evaluates a request, with a default if it depends on itself. -/
  | evaluateD (r : Request) (default : Int64)
  /-- Replaces scripts, or removes them. -/
  | edit (changes : List ((Kind × String) × Option Entry))
  | options
  /-- Asks for the results outside the engine. -/
  | listing

inductive Response where
  | reply (r : Reply family)
  | value (n : Int64)
  | options (o : Options)
  | listing (entries : List (String × Int64))

/-- What a step gave: its result, the events during it, and the number of diagnostics after it. -/
@[ext]
structure Report where
  result : Except (Stop family) Response
  events : List String
  diagnostics : Nat

/-- Whether a stop in the step ends the session. -/
def Step.isEvaluation : Step → Bool
  | command (.evaluate _) | evaluateD .. => true
  | _ => false

/-- What a step does to the engine. -/
def Step.act (table : Table) : Step → Eval family Response
  | command c => do return .reply (← c.run table.rules table.depth)
  | evaluateD r d => do
    return .value (Outcome.getD (← table.rules.evaluate table.depth [] r) d)
  | edit _ => do return .reply .done
  | options => do return .options (← get).options
  | listing => do return .listing (← get).world.listing

/-- The scripts after a step. -/
def Step.edited (table : Table) : Step → Table
  | edit changes => changes.foldl (fun t c => t.edit c.1 c.2) table
  | _ => table

namespace Session

/-- The kinds whose computations are known at the start of a registered session. -/
def registeredKinds : List Kind :=
  Kind.all.filter fun k =>
    k ≠ .keyed .impostor && k ≠ .keyed .early && k ≠ .keyed .iface

/-- A new engine. -/
def start (table : Table) (options : Options) (register : Bool) : Session :=
  let state : State family := { options := options, world := {} }
  if register then
    match (Eval.register (F := family) .testing registeredKinds).run state with
    | .ok _ state | .error _ state => ⟨table, state⟩
  else ⟨table, state⟩

/-- One step of a session. -/
def step (s : Session) (st : Step) : Report × Session :=
  let finish (result : Except (Stop family) Response) (state : State family) :
      Report × Session :=
    (⟨result, state.world.events, state.diagnostics.length⟩,
      ⟨st.edited s.table, { state with world := { state.world with events := [] } }⟩)
  match (st.act s.table).run s.state with
  | .ok response state => finish (.ok response) state
  | .error stop state => finish (.error stop) state

/-- Only an evaluation that stops ends a session. -/
def stepper : Stepper Session Step Report where
  step := step
  goesOn st report := !st.isEvaluation || report.result.isOk

/-- The reports of steps one after the other, up to an evaluation that stops. -/
def run (s : Session) (steps : List Step) : List Report :=
  stepper.run s steps

end Session

end Demand.Script
