import Demand.Proofs.Compiler.Session
import Demand.Proofs.Script.Aids

/-!
# Compiler sessions with and without debugging aids

The same for sessions of the compiler as for scripted ones: sessions that differ in their aids take
the same steps to the same reports, hold on to the same definitions and stay alike
(`Session.matches_alike`). With the one for scripts this gives that no setting of the aids shows in
what an engine does (`aids_do_not_show`).
-/

namespace Demand.Compiler

open Eval

variable {o o' : Options}

/-- The step shows what the aids collect. -/
def Step.ShowsAids : Step → Prop
  | dump _ | graphviz | statistics => True
  | _ => False

/-- The reports of the step of sessions with different aids: both sessions stop or none does, and
only what the aids collect can differ. -/
structure Report.Alike (st : Step) (a a' : Report) : Prop where
  ends : a.result.isOk = a'.result.isOk
  result : ¬ st.ShowsAids → a.result = a'.result
  diagnostics : a.diagnostics = a'.diagnostics

section Blind

variable {A : State family → State family → Prop} [Unseen A]

theorem blind_registerAll : Blind A registerAll :=
  (blind_register _ _).bind fun _ => (blind_register _ _).bind fun _ =>
    (blind_register _ _).bind fun _ => (blind_register _ _).bind fun _ => blind_pure ()

/-- There is as much fuel for engines that differ in nothing that is seen. -/
theorem blind_evaluate (files : List SourceFile) (r : Request) : Blind A (evaluate files r) := by
  intro s s' h
  rw [evaluate, get_bind, get_bind, depth, Unseen.cache h]
  exact rules.blind_evaluate _ [] r s s' h

end Blind

/-- The requests that are computed when these are asked for from outside, one after the other. -/
def computations (files : List SourceFile) : List Request → State family → List Request
  | [], _ => []
  | r :: rs, s => rules.computations (depth files s) [] r s ++
    match evaluate files r s with
    | .ok _ s₁ => computations files rs s₁
    | .error _ _ => []

theorem computations_alike (files : List SourceFile) (rs : List Request) {s s' : State family}
    (h : Alike o o' s s') : computations files rs s = computations files rs s' := by
  induction rs generalizing s s' with
  | nil => rfl
  | cons r rs ih =>
    have hr : Agree (Demand.Alike o o') Eq (evaluate files r s) (evaluate files r s') :=
      blind_evaluate files r s s' h
    rw [computations, computations, depth, h.cache, rules.computations_alike _ [] r h]
    generalize evaluate files r s = x at hr ⊢
    generalize evaluate files r s' = x' at hr ⊢
    cases hr with
    | ok _ hs => exact congrArg (_ ++ ·) (ih hs)
    | error _ => rfl

namespace Session

/-- Sessions on the same files that hold the same definitions, on engines that are related. -/
structure Related (A : State family → State family → Prop) (s s' : Session) : Prop where
  files : s.files = s'.files
  held : s.held = s'.held
  state : A s.state s'.state

variable {s s' : Session}

section Act

variable {A : State family → State family → Prop} [Unseen A] {st : Step} {t t' : State family}

/-- The responses are related, and the same definitions are held after them. -/
def Responses (R : Response → Response → Prop) (x x' : Response × List Definition) : Prop :=
  R x.1 x'.1 ∧ x.2 = x'.2

/-- The responses to the step, which are the same unless it shows what the aids collect. -/
abbrev Unshown (st : Step) (a a' : Response) : Prop :=
  ¬ st.ShowsAids → a = a'

theorem agree_command (h : A t t') {c : Command family}
    (hc : ¬ st.ShowsAids → ¬ c.ShowsAids) :
    Agree A (Responses (Unshown st)) (s.command c t) (s.command c t') := by
  rw [command, get_bind, get_bind, depth, Unseen.cache h]
  refine (Command.agree_run rules _ c h).bind fun a a' t t' ha ht => ?_
  exact .ok ⟨fun hst => congrArg Response.reply (ha (hc hst)), rfl⟩ ht

theorem agree_commandOn (h : A t t') {q : Query} {c : Request → Command family}
    (hc : ∀ r, ¬ st.ShowsAids → ¬ (c r).ShowsAids) :
    Agree A (Responses (Unshown st)) (s.commandOn q c t) (s.commandOn q c t') := by
  unfold commandOn
  cases s.request? q with
  | none => exact .ok ⟨fun _ => rfl, rfl⟩ h
  | some r => exact agree_command h (hc r)

variable (s st) in
/-- A step acts the same, but for the response if it shows what the aids collect. -/
theorem agree_act (h : A t t') :
    Agree A (Responses (Unshown st)) (s.act st t) (s.act st t') := by
  have hblind : ∀ {m : Eval family (Response × List Definition)}, Blind A m →
      Agree A (Responses (Unshown st)) (m t) (m t') :=
    fun hm => (hm t t' h).mono fun _ _ hx => ⟨fun _ => congrArg Prod.fst hx, congrArg Prod.snd hx⟩
  cases st with
  | register => exact hblind (blind_registerAll.bind fun _ => blind_pure _)
  | evaluate q => exact agree_commandOn h fun _ _ => id
  | evaluateD g =>
    rw [act]
    cases s.given? g with
    | none => exact hblind (blind_pure _)
    | some x => exact hblind ((blind_evaluate _ _).bind fun _ => blind_pure _)
  | both i =>
    rw [act]
    cases s.file? i with
    | none => exact hblind (blind_pure _)
    | some f =>
      exact hblind ((blind_evaluate _ _).bind fun _ => (blind_evaluate _ _).bind fun _ =>
        blind_pure _)
  | hold i =>
    rw [act]
    cases s.file? i with
    | none => exact hblind (blind_pure _)
    | some f => exact hblind ((blind_evaluate _ _).bind fun _ => blind_pure _)
  | holdLookup i name =>
    rw [act]
    cases s.file? i with
    | none => exact hblind (blind_pure _)
    | some f =>
      refine hblind ((blind_evaluate _ _).bind fun a => ?_)
      cases Outcome.getD a none with
      | none => exact blind_pure _
      | some d => exact blind_pure _
  | put g =>
    rw [act]
    cases s.given? g with
    | none => exact hblind (blind_pure _)
    | some x => exact agree_command h fun _ => id
  | isCached q | clear q => exact agree_commandOn h fun _ _ => id
  | dump q => exact agree_commandOn h fun _ hst => absurd trivial hst
  | graphviz | statistics => exact agree_command h fun hst => absurd trivial hst
  | clearCache | references f | diagnostics | takeDiagnostics => exact agree_command h fun _ => id
  | render color =>
    rw [act, get_bind, get_bind, Unseen.diagnostics h]
    exact hblind (blind_pure _)

/-- A step that acts the same on related engines is reported the same, but for its response, and
leaves the sessions related. -/
theorem step_related {R : Response → Response → Prop} (h : Related A s s')
    (hact : Agree A (Responses R) (s.act st s.state) (s.act st s'.state)) :
    (Likewise R (s.step st).1.result (s'.step st).1.result ∧
      (s.step st).1.diagnostics = (s'.step st).1.diagnostics) ∧
    Related A (s.step st).2 (s'.step st).2 := by
  have hsame : s'.act st = s.act st := by
    obtain ⟨files, held, t⟩ := s
    obtain ⟨files', held', t'⟩ := s'
    obtain ⟨rfl, rfl, -⟩ := h
    cases st <;> rfl
  unfold step
  rw [hsame, EStateM.run, EStateM.run]
  generalize s.act st s.state = x at hact ⊢
  generalize s.act st s'.state = x' at hact ⊢
  cases hact with
  | ok hx hs =>
    exact ⟨⟨.ok hx.1, congrArg List.length (Unseen.diagnostics hs)⟩, h.files, hx.2, hs⟩
  | error hs => exact ⟨⟨.error, congrArg List.length (Unseen.diagnostics hs)⟩, h.files, h.held, hs⟩

end Act

/-- Sessions that differ in their aids report alike and stay alike. -/
theorem matches_alike (o o' : Options) :
    stepper.Matches (Related (Alike o o')) Report.Alike where
  report := by
    intro s s' st h
    obtain ⟨⟨hresult, hdiagnostics⟩, -⟩ := step_related h (agree_act s st h.state)
    exact ⟨hresult.isOk_eq, fun hst => hresult.eq fun _ _ ha => ha hst, hdiagnostics⟩
  state st h := (step_related h (agree_act _ st h.state)).2
  goesOn {st a a'} h := by
    show (st.mayStop || a.result.isOk) = (st.mayStop || a'.result.isOk)
    rw [h.ends]

/-- What is left of the session after steps one after the other, up to a stop that ends it. -/
def left (s : Session) (steps : List Step) : Session :=
  stepper.left s steps

/-- The requests that are computed in steps one after the other. -/
def computations (s : Session) (steps : List Step) : List Request :=
  stepper.collect (fun s st => Compiler.computations s.files (s.asked st) s.state) s steps

theorem computations_alike (h : Related (Alike o o') s s') (steps : List Step) :
    s.computations steps = s'.computations steps := by
  refine (matches_alike o o').collect (fun s s' st h => ?_) h steps
  -- what a step asks for does not depend on the state of the engine
  have hasked : s.asked st = s'.asked st := by
    obtain ⟨files, held, t⟩ := s
    obtain ⟨files', held', t'⟩ := s'
    obtain ⟨rfl, rfl, -⟩ := h
    cases st <;> rfl
  rw [h.files, hasked, Compiler.computations_alike _ _ h.state]

/-- New engines are alike. -/
theorem start_alike (files : List SourceFile) (o o' : Options) (register : Bool) :
    Related (Alike o o') (start files o register) (start files o' register) := by
  have hempty : Demand.Alike (F := family) o o' { options := o, world := {} }
      { options := o', world := {} } := ⟨rfl, rfl, rfl, rfl, rfl, rfl, rfl⟩
  unfold start
  cases register with
  | false => exact ⟨rfl, rfl, hempty⟩
  | true =>
    have hregister := blind_registerAll _ _ hempty
    dsimp only
    rw [if_pos rfl, if_pos rfl, EStateM.run, EStateM.run]
    generalize registerAll { options := o, world := {} } = x at hregister ⊢
    generalize registerAll { options := o', world := {} } = x' at hregister ⊢
    cases hregister with
    | ok _ hs => exact ⟨rfl, rfl, hs⟩
    | error hs => exact ⟨rfl, rfl, hs⟩

end Session

end Demand.Compiler

namespace Demand

/-- Whatever debugging aids two engines have: on the same scripts, or on the same files, and in any
steps, every step that does not show the aids or what they collect is reported the same, with the
same result or the same stop; the same requests are computed in the same order; and the engines are
left with the same computations, results, references, diagnostics and stores. -/
theorem aids_do_not_show (o o' : Options) (register : Bool) :
    (∀ (table : Script.Table) (steps : List Script.Step),
      (∀ (k : Nat) (st : Script.Step), steps[k]? = some st →
        Option.Rel (Script.Report.Alike o o' st)
          ((Script.Session.start table o register).run steps)[k]?
          ((Script.Session.start table o' register).run steps)[k]?) ∧
      (Script.Session.start table o register).computations steps =
        (Script.Session.start table o' register).computations steps ∧
      Alike o o' ((Script.Session.start table o register).left steps).state
        ((Script.Session.start table o' register).left steps).state) ∧
    ∀ (files : List SourceFile) (steps : List Compiler.Step),
      (∀ (k : Nat) (st : Compiler.Step), steps[k]? = some st →
        Option.Rel (Compiler.Report.Alike st)
          ((Compiler.Session.start files o register).run steps)[k]?
          ((Compiler.Session.start files o' register).run steps)[k]?) ∧
      (Compiler.Session.start files o register).computations steps =
        (Compiler.Session.start files o' register).computations steps ∧
      Alike o o' ((Compiler.Session.start files o register).left steps).state
        ((Compiler.Session.start files o' register).left steps).state := by
  constructor
  · intro table steps
    have h := Script.Session.start_alike table o o' register
    have hmatches := Script.Session.matches_alike o o'
    exact ⟨fun k st hk => hmatches.run h hk, Script.Session.computations_alike h steps,
      (hmatches.left h steps).state⟩
  · intro files steps
    have h := Compiler.Session.start_alike files o o' register
    have hmatches := Compiler.Session.matches_alike o o'
    exact ⟨fun k st hk => hmatches.run h hk, Compiler.Session.computations_alike h steps,
      (hmatches.left h steps).state⟩

/-- Steps on the sample that end with a drawing of the graph. -/
def drawnSteps : List Script.Step :=
  Script.sampleSteps ++ [.command .graphviz]

/-- On the sample, with no aids and with all, the cycle is reported the same and the same three
requests are computed; the graphs differ. -/
theorem aids_do_not_show_sample :
    (∃ a a', ((Script.Session.start Script.sample {} true).run drawnSteps)[1]? = some a ∧
      ((Script.Session.start Script.sample ⟨true, true, true⟩ true).run drawnSteps)[1]? = some a' ∧
      a.result = a'.result ∧ a.diagnostics = 1 ∧ a'.diagnostics = 1) ∧
    (Script.Session.start Script.sample {} true).computations drawnSteps =
      (Script.Session.start Script.sample ⟨true, true, true⟩ true).computations drawnSteps ∧
    ((Script.Session.start Script.sample {} true).computations drawnSteps).length = 3 ∧
    ((Script.Session.start Script.sample {} true).left drawnSteps).state.recorder =
      ((Script.Session.start Script.sample ⟨true, true, true⟩ true).left drawnSteps).state.recorder ∧
    ((Script.Session.start Script.sample {} true).left drawnSteps).state.graph.size = 0 ∧
    ((Script.Session.start Script.sample ⟨true, true, true⟩ true).left
      drawnSteps).state.graph.size = 3 := by
  obtain ⟨hrun, hcomputations, hleft⟩ :=
    (aids_do_not_show {} ⟨true, true, true⟩ true).1 Script.sample drawnSteps
  refine ⟨?_, hcomputations, by decide +kernel, hleft.recorder, by decide +kernel,
    by decide +kernel⟩
  have hcount : (((Script.Session.start Script.sample {} true).run drawnSteps)[1]?).map
      Script.Report.diagnostics = some 1 := by decide +kernel
  have hcycle := hrun 1 (.command (.evaluate [.keyed .cached "loop"])) rfl
  generalize ((Script.Session.start Script.sample {} true).run drawnSteps)[1]? = x at hcycle hcount ⊢
  generalize ((Script.Session.start _ ⟨true, true, true⟩ true).run drawnSteps)[1]? = x' at hcycle ⊢
  cases hcycle with
  | none => cases hcount
  | some ha =>
    have hone := Option.some.inj hcount
    exact ⟨_, _, rfl, rfl, ha.result id, hone, ha.diagnostics.symm.trans hone⟩

end Demand
