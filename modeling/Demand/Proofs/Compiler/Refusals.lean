import Demand.Proofs.Compiler.Aids
import Demand.Proofs.Compiler.Display
import Demand.Proofs.Script.Refusals

/-!
# Compiler sessions after a refusal

The same for sessions of the compiler as for scripted ones (`Session.run_of_refused`). A session
gives the computations of four zones in one step; between steps either all of them are known or none
is, so that the step is refused before any of them is added (`eq_of_registerAll`). With the one for
scripts this gives that nothing is left of what an engine refuses (`refusals_leave_no_trace`).
-/

namespace Demand.Compiler

open Eval

/-- Where all computations are known, or none is, giving them is refused as a whole. -/
theorem eq_of_registerAll {s s' : State family} {e : Stop family}
    (hgiven : (∀ k, s.registry.knows k) ∨ s.registry = {}) (h : registerAll s = .error e s') :
    s' = s := by
  rcases hgiven with hknown | hnone
  · -- the zone that comes first is known
    have hzone : (s.registry.zone? .parse).isSome := by
      have hcheck : s.registry.check .parseModule = .ok () := hknown .parseModule
      unfold Registry.check at hcheck
      cases hz : s.registry.zone? (family.typeId .parseModule).zone with
      | none =>
        rw [hz] at hcheck
        cases hcheck
      | some z =>
        show (s.registry.zone? (family.typeId .parseModule).zone).isSome
        rw [hz]
        rfl
    have hrefused : ∃ e s₁, register (F := family) .parse [.parseModule] s = .error e s₁ :=
      register_error_iff.2 (.inr hzone)
    obtain ⟨e', s₁, hregister⟩ := hrefused
    have herror : registerAll s = .error e' s₁ := by
      show EStateM.bind (register (F := family) .parse [.parseModule]) _ s = _
      rw [EStateM.bind, hregister]
    rw [herror] at h
    cases h
    exact eq_of_register hregister
  · obtain ⟨options, registry, cache, recorder, diagnostics, statistics, graph, log, world⟩ := s
    subst hnone
    cases h

namespace Session

variable {s s' : Session}

theorem blind_command (s : Session) (c : Command family) :
    Blind UpToLog (s.command c) := by
  intro t t' h
  rw [command, get_bind, get_bind, depth, Unseen.cache h]
  exact (Command.blind_run rules _ c).bind (fun _ => blind_pure _) t t' h

/-- A step acts the same whatever is in the log. -/
theorem blind_act (s : Session) (st : Step) : Blind UpToLog (s.act st) := by
  by_cases hst : st.ShowsAids
  · cases st with
    | dump q =>
      show Blind UpToLog (s.commandOn q fun r => .dump r)
      unfold commandOn
      cases s.request? q with
      | none => exact blind_pure _
      | some r => exact s.blind_command (.dump r)
    | graphviz => exact s.blind_command .graphviz
    | statistics => exact s.blind_command .statistics
    | _ => exact hst.elim
  · intro t t' h
    refine (agree_act s st h).mono ?_
    rintro ⟨a, held⟩ ⟨a', held'⟩ ⟨ha, hheld⟩
    exact Prod.ext (ha hst) hheld

/-- Sessions whose engines differ in their logs report the same. -/
theorem matches_upToLog : stepper.Matches (Related UpToLog) fun _ => Eq := by
  have hact : ∀ {s s' : Session} (st : Step), Related UpToLog s s' →
      Agree UpToLog (Responses Eq) (s.act st s.state) (s.act st s'.state) :=
    fun {s _} st h => (s.blind_act st _ _ h.state).mono fun _ _ hx => Prod.ext_iff.1 hx
  refine ⟨?_, fun st h => (step_related h (hact st h)).2, fun h => by rw [h]⟩
  intro s s' st h
  obtain ⟨⟨hresult, hdiagnostics⟩, -⟩ := step_related h (hact st h)
  show (s.step st).1 = (s'.step st).1
  exact Report.ext (hresult.eq fun _ _ ha => ha) hdiagnostics

/-- What is refused leaves nothing but a line in the log. -/
theorem upToLog_of_refused (hgiven : (∀ k, s.state.registry.knows k) ∨ s.state.registry = {})
    {st : Step} (hst : st.mayStop) {t : State family} {e : Stop family}
    (h : s.act st s.state = .error e t) : UpToLog s.state t := by
  cases st with
  | put g =>
    rw [act] at h
    cases hg : s.given? g with
    | none =>
      rw [hg] at h
      cases h
    | some x =>
      rw [hg] at h
      obtain ⟨r, out⟩ := x
      have hput : (Command.put (F := family) r out).IsPut := trivial
      have hrun : (Command.put (F := family) r out).run rules (depth s.files s.state) s.state =
          .error e t := error_of_map (f := fun reply => (Response.reply reply, s.held)) h
      exact Command.upToLog_of_refused (.inl hput) hrun
  | register =>
    have hall : registerAll s.state = .error e t :=
      error_of_map (f := fun _ => (Response.reply .done, s.held)) h
    rw [eq_of_registerAll hgiven hall]
    exact upToLog_refl s.state
  | _ => cases hst

/-- A session goes on as if what is refused had not been asked. -/
theorem run_of_refused (hgiven : (∀ k, s.state.registry.knows k) ∨ s.state.registry = {})
    {st : Step} (hst : st.mayStop) {e : Stop family} (h : (s.step st).1.result = .error e)
    (rest : List Step) : s.run (st :: rest) = (s.step st).1 :: s.run rest := by
  have hsame : Related UpToLog s (s.step st).2 := by
    unfold step at h ⊢
    rw [EStateM.run] at h ⊢
    cases hact : s.act st s.state with
    | ok x t =>
      rw [hact] at h
      cases h
    | error e' t => exact ⟨rfl, rfl, upToLog_of_refused hgiven hst hact⟩
  have hgoes : stepper.goesOn st (s.step st).1 := by simp [stepper, hst]
  exact matches_upToLog.run_cons_of_related hgoes hsame rest

end Session

end Demand.Compiler

namespace Demand

/-- Nothing is left of what an engine refuses. A result that is given by hand is refused if results
of its kind are not kept, if this one is not, if the engine has one, or if the number of the kind is
used by another; computations are refused if they cannot be given together, or if those of the zone
are known. Whatever the state, all commands that follow are answered as if what was refused had not
been asked. The same holds of every later step of a session, scripted or of the compiler, whatever
was done in it before. -/
theorem refusals_leave_no_trace :
    (∀ (F : Family) (rules : Rules F) (s : State F),
      (∀ (r : F.Request) (out : F.Output r) (e : Stop F),
        (∃ s', Eval.putResult r out s = .error e s') ↔ ∃ f, e = .fault f ∧ Refuses s r f) ∧
      (∀ (zone : Zone) (kinds : List F.Kind),
        (∃ e s', Eval.register zone kinds s = .error e s') ↔
          (∃ f, ZoneRules.ofKinds zone kinds = .error f) ∨ (s.registry.zone? zone).isSome) ∧
      ∀ (n : Nat) (c : Command F), c.IsPut ∨ c.IsRegister →
        ∀ e s', c.run rules n s = .error e s' →
          ∀ cs, Command.replies rules cs s' = Command.replies rules cs s) ∧
    (∀ (table : Script.Table) (options : Options) (register : Bool) (steps : List Script.Step)
      (c : Command Script.family), c.IsPut ∨ c.IsRegister →
        let s := (Script.Session.start table options register).left steps
        ∀ e, (s.step (.command c)).1.result = .error e →
          ∀ rest, s.run (.command c :: rest) = (s.step (.command c)).1 :: s.run rest) ∧
    ∀ (files : List SourceFile) (options : Options) (register : Bool)
      (steps : List Compiler.Step) (st : Compiler.Step), st.mayStop →
        let s := (Compiler.Session.start files options register).after steps
        ∀ e, (s.step st).1.result = .error e →
          ∀ rest, s.run (st :: rest) = (s.step st).1 :: s.run rest := by
  refine ⟨?_, ?_, ?_⟩
  · intro F rules s
    refine ⟨?_, fun zone kinds => Eval.register_error_iff, ?_⟩
    · intro r out e
      constructor
      · rintro ⟨s', h⟩
        exact (Eval.refuses_of_putResult h).1
      · rintro ⟨f, rfl, h⟩
        exact Eval.putResult_of_refuses h out
    · intro n c hc e s' h cs
      exact Command.replies_of_refused hc h cs
  · intro table options register steps c hc s e h rest
    exact Script.Session.run_of_refused
      (Script.Session.events_left (Script.Session.events_start table options register) steps) hc h
      rest
  · intro files options register steps st hst s e h rest
    have hshows := Compiler.Session.start_shows (fun _ _ => True) files options register
    have hafter : Compiler.Session.Shows (fun _ _ => True) files
        ((Compiler.Session.start files options register).after steps) :=
      hshows.after fun _ _ _ => trivial
    exact Compiler.Session.run_of_refused hafter.composed.orderly.given hst h rest

/-- What the message of a stop in a step says. -/
def Script.Report.stop? (a : Script.Report) : Option String :=
  match a.result with
  | .ok _ => none
  | .error e => some e.message

/-- Results for a kind that keeps none, for a request that keeps none, for one that has a result and
for a kind whose number is used; and the computations of a zone that is known. -/
def refusedCommands : List (Command Script.family) :=
  [.put (.keyed .uncached "u") (1 : Int64), .put (.keyed .cached "!x") (1 : Int64),
    .put (.keyed .cached "k") (2 : Int64), .put (.keyed .impostor "i") (1 : Int64),
    .register .testing []]

/-- Steps that evaluate, ask for what is kept, and show what was collected. -/
def laterSteps : List Script.Step :=
  [.command (.isCached (.keyed .cached "k")), Script.evaluateSource 1,
    .command (.evaluate [.keyed .cached "k"]), .command (.references ⟨1⟩), .command .statistics,
    .command (.dump (.filed .source ⟨1⟩ "a")), .command .graphviz, .command .diagnostics]

/-- After a result was given on the sample, each of these is refused for a reason of its own, and
the same eight steps follow; computations of the compiler that are given twice are refused too. -/
theorem refusals_leave_no_trace_sample :
    let s := (Script.Session.start Script.sample ⟨true, true, true⟩ true).left
      [.command (.put (.keyed .cached "k") (1 : Int64))]
    let t := (Compiler.Session.start [] {} true).after []
    (refusedCommands.map fun c => (s.step (.command c)).1.stop?) =
      [some "cannot cache the output of uncached request `Uncached(\"u\")`",
        some "cannot cache the output of request `Cached(\"!x\")`, which opted out of caching",
        some "request `Cached(\"k\")` was already cached",
        some "request type id Testing:0 of `Impostor` is already used by another request type",
        some "zone Testing is registered twice"] ∧
    (∀ c ∈ refusedCommands,
      s.run (.command c :: laterSteps) = (s.step (.command c)).1 :: s.run laterSteps) ∧
    (s.run laterSteps).length = 8 ∧
    t.run [.register, .diagnostics] = (t.step .register).1 :: t.run [.diagnostics] := by
  intro s t
  refine ⟨by decide +kernel, ?_, by decide +kernel, ?_⟩
  · intro c hc
    have hkind : c.IsPut ∨ c.IsRegister := by
      simp only [refusedCommands, List.mem_cons, List.not_mem_nil, or_false] at hc
      rcases hc with rfl | rfl | rfl | rfl | rfl
      · exact .inl trivial
      · exact .inl trivial
      · exact .inl trivial
      · exact .inl trivial
      · exact .inr trivial
    have hstops : refusedCommands.all fun c => (s.step (.command c)).1.stop?.isSome := by
      decide +kernel
    have hstop : (s.step (.command c)).1.stop?.isSome := List.all_eq_true.1 hstops c hc
    unfold Script.Report.stop? at hstop
    cases hresult : (s.step (.command c)).1.result with
    | ok a =>
      rw [hresult] at hstop
      cases hstop
    | error e =>
      exact refusals_leave_no_trace.2.1 Script.sample ⟨true, true, true⟩ true _ c hkind e hresult
        laterSteps
  · exact refusals_leave_no_trace.2.2 [] {} true [] .register rfl _ rfl [.diagnostics]

end Demand
