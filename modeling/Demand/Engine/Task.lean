import Demand.Log
import Demand.Reference
import Demand.Request.Family

/-! Tasks: computations that ask for the results of other requests.

A task is a tree of what it does: it ends with a result, or does one thing and goes on with what
it learned. It says nothing about caches, cycles or scopes, so that the same task can be run by
the engine and by a plain recursive evaluator. -/

namespace Demand

inductive Task (F : Family) (α : Type) where
  /-- Ends with a result. -/
  | done (result : α)
  /-- Asks for the result of a request. -/
  | ask (r : F.Request) (next : Outcome F r → Task F α)
  /-- Records a reference. -/
  | record (ref : Reference) (next : Task F α)
  /-- Reports a diagnostic. -/
  | report (d : Diagnostic) (next : Task F α)
  /-- Learns whether a request is being evaluated. -/
  | isActive (r : F.Request) (next : Bool → Task F α)
  /-- Learns the request that it computes. -/
  | current (next : Option F.Request → Task F α)
  /-- Writes to the log. -/
  | log (level : LogLevel) (text : String) (next : Task F α)
  /-- Learns the world and changes it. -/
  | visit (change : F.World → F.World) (next : F.World → Task F α)

namespace Task

variable {F : Family} {α β : Type}

/-- Goes on with a second task where the first ends. -/
def bind (t : Task F α) (f : α → Task F β) : Task F β :=
  match t with
  | done a => f a
  | ask r next => ask r fun o => (next o).bind f
  | record ref next => record ref (next.bind f)
  | report d next => report d (next.bind f)
  | isActive r next => isActive r fun b => (next b).bind f
  | current next => current fun r => (next r).bind f
  | log level text next => log level text (next.bind f)
  | visit change next => visit change fun w => (next w).bind f

instance : Monad (Task F) where
  pure := done
  bind := bind

@[simp] theorem pure_eq (a : α) : (pure a : Task F α) = done a := rfl

@[simp] theorem done_bind (a : α) (f : α → Task F β) : (done a >>= f) = f a := rfl

theorem bind_done (t : Task F α) : t.bind done = t := by
  induction t with
  | done a => rfl
  | ask r next ih => simp only [bind, ih]
  | record ref next ih => simp only [bind, ih]
  | report d next ih => simp only [bind, ih]
  | isActive r next ih => simp only [bind, ih]
  | current next ih => simp only [bind, ih]
  | log level text next ih => simp only [bind, ih]
  | visit change next ih => simp only [bind, ih]

theorem bind_bind {γ : Type} (t : Task F α) (f : α → Task F β) (g : β → Task F γ) :
    (t.bind f).bind g = t.bind fun a => (f a).bind g := by
  induction t with
  | done a => rfl
  | ask r next ih => simp only [bind, ih]
  | record ref next ih => simp only [bind, ih]
  | report d next ih => simp only [bind, ih]
  | isActive r next ih => simp only [bind, ih]
  | current next ih => simp only [bind, ih]
  | log level text next ih => simp only [bind, ih]
  | visit change next ih => simp only [bind, ih]

/-- Asks for the result of a request. -/
def evaluate (r : F.Request) : Task F (Outcome F r) :=
  ask r done

/-- Asks for the result of a request, with a default if the request depends on itself. -/
def evaluateD (r : F.Request) (d : F.Output r) : Task F (F.Output r) :=
  ask r fun o => done (o.getD d)

/-- Reports diagnostics one after the other. -/
def reportAll : List Diagnostic → Task F Unit
  | [] => done ()
  | d :: ds => report d (reportAll ds)

/-- Changes the world. -/
def change (f : F.World → F.World) : Task F Unit :=
  visit f fun _ => done ()

/-- Writes to the log. -/
def say (level : LogLevel) (text : String) : Task F Unit :=
  log level text (done ())

end Task

end Demand
