import Demand.Proofs.Engine.Aids
import Demand.Proofs.Script.Computations

/-!
# Scripted sessions with and without debugging aids

A step sees nothing of an engine that no part of it sees, but for what it shows
(`Session.step_related`). So sessions that differ in their aids take the same steps to the same
reports, but for the steps that show the aids or what they collect, and stay alike
(`Session.matches_alike`), and the same requests are computed in the same order
(`Session.computations_alike`).
-/

namespace Demand.Script

open Eval

variable {o o' : Options}

/-- The step shows the aids or what they collect. -/
def Step.ShowsAids : Step → Prop
  | command c => c.ShowsAids
  | options => True
  | _ => False

/-- The reports of the step of sessions with these aids: both sessions stop or none does, and only
what the aids collect can differ. -/
structure Report.Alike (o o' : Options) (st : Step) (a a' : Report) : Prop where
  ends : a.result.isOk = a'.result.isOk
  result : ¬ st.ShowsAids → a.result = a'.result
  options : st = .options → a.result = .ok (.options o) ∧ a'.result = .ok (.options o')
  events : a.events = a'.events
  diagnostics : a.diagnostics = a'.diagnostics

section Related

variable {A : State family → State family → Prop} [Unseen A]

/-- A step acts the same, but for the response if it shows the aids or what they collect. -/
theorem Step.agree_act (table : Table) (st : Step) {t t' : State family} (h : A t t') :
    Agree A (fun a a' => ¬ st.ShowsAids → a = a') (st.act table t) (st.act table t') := by
  have hblind : ∀ {m : Eval family Response}, Blind A m →
      Agree A (fun a a' => ¬ st.ShowsAids → a = a') (m t) (m t') :=
    fun hm => (hm t t' h).mono fun _ _ ha _ => ha
  cases st with
  | command c =>
    refine (Command.agree_run table.rules table.depth c h).bind fun a a' s s' ha hs => ?_
    exact .ok (fun hst => congrArg Response.reply (ha hst)) hs
  | evaluateD r d => exact hblind ((table.rules.blind_evaluate _ _ _).bind fun _ => blind_pure _)
  | edit changes => exact hblind (blind_pure _)
  | options => exact .ok (fun hst => absurd trivial hst) h
  | listing =>
    rw [act, get_bind, get_bind, Unseen.world h]
    exact hblind (blind_pure _)

namespace Session

/-- Sessions with the same scripts on engines that are related. -/
structure Related (A : State family → State family → Prop) (s s' : Session) : Prop where
  table : s.table = s'.table
  state : A s.state s'.state

variable {s s' : Session}

/-- A step that acts the same on related engines is reported the same, but for its response, and
leaves the sessions related. -/
theorem step_related {R : Response → Response → Prop} {st : Step} (h : Related A s s')
    (hact : Agree A R (st.act s.table s.state) (st.act s.table s'.state)) :
    (Likewise R (s.step st).1.result (s'.step st).1.result ∧
      (s.step st).1.events = (s'.step st).1.events ∧
      (s.step st).1.diagnostics = (s'.step st).1.diagnostics) ∧
    Related A (s.step st).2 (s'.step st).2 := by
  unfold step
  rw [← h.table, EStateM.run, EStateM.run]
  generalize st.act s.table s.state = x at hact ⊢
  generalize st.act s.table s'.state = x' at hact ⊢
  cases hact with
  | ok ha hs =>
    exact ⟨⟨.ok ha, congrArg World.events (Unseen.world hs),
      congrArg List.length (Unseen.diagnostics hs)⟩, rfl,
      Unseen.with_world hs (by rw [Unseen.world hs])⟩
  | error hs =>
    exact ⟨⟨.error, congrArg World.events (Unseen.world hs),
      congrArg List.length (Unseen.diagnostics hs)⟩, rfl,
      Unseen.with_world hs (by rw [Unseen.world hs])⟩

end Session

end Related

namespace Session

/-- Sessions that differ in their aids report alike and stay alike. -/
theorem matches_alike (o o' : Options) :
    stepper.Matches (Related (Alike o o')) (Report.Alike o o') where
  report := by
    intro s s' st h
    obtain ⟨⟨hresult, hevents, hdiagnostics⟩, -⟩ := step_related h (st.agree_act s.table h.state)
    refine ⟨hresult.isOk_eq, fun hst => hresult.eq fun _ _ ha => ha hst, ?_, hevents, hdiagnostics⟩
    rintro rfl
    exact ⟨congrArg (fun o => Except.ok (Response.options o)) h.state.aids,
      congrArg (fun o => Except.ok (Response.options o)) h.state.aids'⟩
  state st h := (step_related h (st.agree_act _ h.state)).2
  goesOn {st a a'} h := by
    show (!st.isEvaluation || a.result.isOk) = (!st.isEvaluation || a'.result.isOk)
    rw [h.ends]

/-- What is left of the session after steps one after the other, up to an evaluation that stops. -/
def left (s : Session) (steps : List Step) : Session :=
  stepper.left s steps

theorem computations_alike {s s' : Session} (h : Related (Alike o o') s s')
    (steps : List Step) : s.computations steps = s'.computations steps := by
  refine (matches_alike o o').collect (fun s s' st h => ?_) h steps
  rw [h.table, Rules.computationsAll_alike _ _ _ h.state]

/-- New engines are alike. -/
theorem start_alike (table : Table) (o o' : Options) (register : Bool) :
    Related (Alike o o') (start table o register) (start table o' register) := by
  have hempty : Demand.Alike (F := family) o o' { options := o, world := {} }
      { options := o', world := {} } := ⟨rfl, rfl, rfl, rfl, rfl, rfl, rfl⟩
  unfold start
  cases register with
  | false => exact ⟨rfl, hempty⟩
  | true =>
    have hregister := blind_register (F := family) .testing registeredKinds _ _ hempty
    dsimp only
    rw [if_pos rfl, if_pos rfl, EStateM.run, EStateM.run]
    generalize Eval.register (F := family) _ _ { options := o, world := {} } = x at hregister ⊢
    generalize Eval.register (F := family) _ _ { options := o', world := {} } = x' at hregister ⊢
    cases hregister with
    | ok _ hs => exact ⟨rfl, hs⟩
    | error hs => exact ⟨rfl, hs⟩

end Session

end Demand.Script
