import Demand.Proofs.Engine.Refusals
import Demand.Proofs.Script.Aids

/-!
# Scripted sessions after a refusal

Sessions whose engines differ in their logs report the same, step by step
(`Session.matches_upToLog`). So a session in which something was refused goes on as if it had not
been asked (`Session.run_of_refused`).
-/

namespace Demand.Script

open Eval

/-- A step acts the same whatever is in the log. -/
theorem Step.blind_act (table : Table) (st : Step) : Blind UpToLog (st.act table) := by
  intro t t' h
  by_cases hst : st.ShowsAids
  · cases st with
    | command c =>
      exact (Command.blind_run table.rules table.depth c).bind (fun _ => blind_pure _) t t' h
    | options =>
      obtain ⟨log, rfl⟩ := h
      exact .ok rfl ⟨log, rfl⟩
    | _ => exact hst.elim
  · exact (st.agree_act table h).mono fun _ _ ha => ha hst

namespace Session

variable {s s' : Session}

/-- Sessions whose engines differ in their logs report the same. -/
theorem matches_upToLog : stepper.Matches (Related UpToLog) fun _ => Eq where
  report := by
    intro s s' st h
    obtain ⟨⟨hresult, hevents, hdiagnostics⟩, -⟩ := step_related h (st.blind_act _ _ _ h.state)
    show (s.step st).1 = (s'.step st).1
    exact Report.ext (hresult.eq fun _ _ ha => ha) hevents hdiagnostics
  state st h := (step_related h (st.blind_act _ _ _ h.state)).2
  goesOn h := by rw [h]

/-! ## Between steps -/

/-- No event is left to tell of after a step. -/
theorem events_step (s : Session) (st : Step) : (s.step st).2.state.world.events = [] := by
  unfold step
  cases (st.act s.table).run s.state <;> rfl

theorem events_left (h : s.state.world.events = []) (steps : List Step) :
    (s.left steps).state.world.events = [] :=
  stepper.left_of_step (I := fun s => s.state.world.events = []) events_step h steps

theorem events_start (table : Table) (options : Options) (register : Bool) :
    (start table options register).state.world.events = [] := by
  obtain ⟨registry, log, hstart⟩ := start_eq table options register
  rw [hstart]

/-- A session goes on as if what is refused had not been asked. -/
theorem run_of_refused (hquiet : s.state.world.events = []) {c : Command family}
    (hc : c.IsPut ∨ c.IsRegister) {e : Stop family}
    (h : (s.step (.command c)).1.result = .error e) (rest : List Step) :
    s.run (.command c :: rest) = (s.step (.command c)).1 :: s.run rest := by
  have hgoes : stepper.goesOn (.command c) (s.step (.command c)).1 := by
    cases c with
    | evaluate rs => exact hc.elim False.elim False.elim
    | _ => rfl
  have hsame : Related UpToLog s (s.step (.command c)).2 := by
    cases hact : Step.act s.table (.command c) s.state with
    | ok response s₁ =>
      rw [step_eq_of_ok hact] at h
      cases h
    | error stop s₁ =>
      obtain ⟨log, rfl⟩ := Command.upToLog_of_refused hc (error_of_map hact)
      have hworld : ({ s.state.world with events := [] } : World) = s.state.world := by
        rw [← hquiet]
      rw [step_eq_of_error hact]
      refine ⟨rfl, log, ?_⟩
      dsimp only
      rw [quiet, hworld]
  exact matches_upToLog.run_cons_of_related hgoes hsame rest

end Session

end Demand.Script
