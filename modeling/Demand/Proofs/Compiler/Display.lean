import Demand.Proofs.Compiler.Locations
import Demand.Proofs.Compiler.Verdicts

/-!
# Every reported location can be shown

A session may give results by hand, drop them and read files again, and it may begin without the
computations. As long as they are not given, requests are served or refused and nothing is reported;
they are given all at once (`Orderly`). After any steps, whether these end or stop, the definitions
that are held and served are declarations of the files and everything in the buffer can be shown, or
it strays from a file that was given definitions of another one (`Session.Shows`). So every location
is a label in the text of its file, and drawing stops only at a label that strays
(`Session.locations_are_shown`).
-/

namespace Demand.Compiler

open Demand.Language

/-! ## States between commands -/

/-- What holds of the engine between commands, whether the computations are given or not. -/
structure Orderly (s : State family) : Prop where
  cache_owned : s.cache.Owned fun _ => True
  recorded_owned : s.recorder.recorded.Owned fun _ => True
  closed : s.recorder.scopes = []
  given : (∀ k, s.registry.knows k) ∨ s.registry = {}

namespace Orderly

variable {s s' : State family}

theorem ready (h : Orderly s) (hk : ∀ k, s.registry.knows k) : Ready s :=
  ⟨⟨Tables.owned_mono h.cache_owned fun k _ => hk k,
    Tables.owned_mono h.recorded_owned fun k _ => hk k⟩, hk, h.closed⟩

theorem of_ready (h : Ready s) : Orderly s :=
  ⟨Tables.owned_mono h.owned.1 fun _ _ => trivial, Tables.owned_mono h.owned.2 fun _ _ => trivial,
    h.closed, .inl h.known⟩

/-- Nothing of this is seen in the graph, the log or the diagnostics. -/
theorem congr (h : Orderly s) (hcache : s'.cache = s.cache)
    (hrecorded : s'.recorder.recorded = s.recorder.recorded) (hclosed : s'.recorder.scopes = [])
    (hgiven : (∀ k, s'.registry.knows k) ∨ s'.registry = {}) : Orderly s' where
  cache_owned := hcache ▸ h.cache_owned
  recorded_owned := hrecorded ▸ h.recorded_owned
  closed := hclosed
  given := hgiven

theorem serves (h : Orderly s) {r : Request} {out : Request.Output r}
    (hs : Serves rules [] r out s s') : Orderly s' := by
  refine h.congr hs.cache hs.recorded ?_ (hs.registry ▸ h.given)
  have hgrown := hs.scopes
  rw [h.closed] at hgrown
  generalize s'.recorder.scopes = scopes at hgrown ⊢
  cases hgrown
  rfl

end Orderly

/-- What holds of the engine between the steps of a session over the files. -/
structure Composed (G : Misplacing) (files : List SourceFile) (s : State family) : Prop where
  orderly : Orderly s
  legible : Legible G files s

namespace Composed

variable {G : Misplacing} {files : List SourceFile} {s : State family}

/-- A request is answered with declarations of the files in their places, or refused. -/
theorem lands_evaluate (h : Composed G files s) {r : Request} (hr : Sited files r) :
    Eval.Lands (Composed G files) (rules.evaluate (depth files s) [] r) s fun o =>
      ∀ out, o = .ok out → Placed G files r out := by
  rcases h.orderly.given with hknown | hnone
  · have hready := h.orderly.ready hknown
    have hstocked := h.legible.stocked
    obtain ⟨o, s', hevaluate, ⟨hready', -⟩, -⟩ :=
      (ends_evaluate_of_stocked hr.file hready hstocked).exists_ok
    have hends := (pointing G _ files files).discipline.ends lawful (depth files s) [] r s
      ⟨⟨reach_depth hr.file s, (hready.endures hstocked.supply).single r⟩,
        List.forall_mem_singleton.2 hr, h.legible⟩
    have hrun : rules.evaluate (depth files s) [] r s = .ok o s' := hevaluate
    obtain ⟨-, -, hlegible, hplaced⟩ := hends.of_ok hrun
    exact Eval.lands_of_ok hrun ⟨.of_ready hready', hlegible⟩ hplaced
  · have hunknown : ¬ s.registry.knows (family.kind r) := by
      rw [hnone]
      simp [Registry.knows, Registry.check, Registry.zone?]
    have hrecorded : ∃ v, s.recorder.recorded.get? r = .ok v :=
      ⟨_, Tables.get?_eq h.orderly.recorded_owned (fun _ _ _ _ => Kind.typeId_injective) trivial⟩
    rcases rules.evaluate_of_unknown (depth files s) hunknown hrecorded with
      ⟨e, graph, hrefused⟩ | ⟨out, s', hserved, hout, hserves⟩
    · refine Eval.lands_of_error hrefused ⟨?_, h.legible.congr (fun _ => rfl) rfl⟩
      exact h.orderly.congr rfl rfl h.orderly.closed h.orderly.given
    · refine Eval.lands_of_ok hserved ⟨h.orderly.serves hserves, ?_⟩ ?_
      · exact h.legible.congr (hserves.served? lawful) hserves.diagnostics
      · rintro _ ⟨⟩
        exact h.legible.served r out hout

/-- Where the evaluation of a request ends. -/
theorem of_evaluate (h : Composed G files s) {r : Request} (hr : Sited files r)
    {o : Outcome family r} {s' : State family} (ho : evaluate files r s = .ok o s') :
    Composed G files s' := by
  have hrun : rules.evaluate (depth files s) [] r s = .ok o s' := ho
  have hlands := h.lands_evaluate hr
  rw [Eval.Lands, hrun] at hlands
  exact hlands.1

theorem evaluate_command (h : Composed G files s) {r : Request} (hr : Sited files r) :
    Composed G files ((Command.run rules (depth files s) (.evaluate [r])).final s) := by
  have hall : Eval.Lands (Composed G files) (rules.evaluateAll (depth files s) [r]) s
      fun _ => True := by
    rw [Rules.evaluateAll]
    exact (h.lands_evaluate hr).bind fun _ _ hs' _ => ⟨hs', trivial⟩
  rw [Command.run, Eval.final_map]
  exact hall.final

/-- Any other command may give results with declarations of the files, but no diagnostics. -/
theorem command (h : Composed G files s) {c : Command family} (he : ¬ c.IsEvaluate)
    (hg : ¬ c.IsRegister) (hr : ¬ c.IsReport)
    (hput : ∀ r out, c = .put r out → Placed G files r out) (n : Nat) :
    Composed G files ((c.run rules n).final s) := by
  have hretains : Command.Retains s ((c.run rules n).final s) := Command.retains he hg hr n s
  have heffect := Command.effect lawful he n s
  constructor
  · constructor
    case cache_owned => exact hretains.cache_owned h.orderly.cache_owned
    case recorded_owned => exact hretains.recorded_owned h.orderly.recorded_owned
    case closed => rw [heffect.scopes, h.orderly.closed]
    case given => rw [hretains.registry]; exact h.orderly.given
  · refine ⟨fun q v hv => ?_, fun d hd => h.legible.told d (hretains.diagnostics hd)⟩
    cases c with
    | put r out =>
      rw [Command.run, Eval.final_map _ fun _ => Reply.done] at hv
      rcases Command.served_put lawful hv with hv | heq
      · exact h.legible.served q v hv
      · cases heq
        exact hput _ _ rfl
    | _ => exact h.legible.served q v (heffect.served id q v hv)

end Composed

/-! ## Giving the computations -/

theorem final_register_bind {zone : Zone} {kinds : List Kind}
    {f : ZoneRules family → Eval family Unit} (s : State family)
    (hf : ∀ z s', ∃ registry log, (f z).final s' = { s' with registry := registry, log := log }) :
    ∃ registry log, (Eval.register zone kinds >>= f).final s =
      { s with registry := registry, log := log } := by
  obtain ⟨registry, log, hregister⟩ := Command.final_register (F := family) zone kinds s
  rw [Eval.final_bind]
  unfold Eval.final at hregister
  cases hr : Eval.register (F := family) zone kinds s with
  | ok z s' =>
    rw [hr] at hregister
    obtain ⟨registry', log', hrest⟩ := hf z s'
    dsimp only at hregister
    subst hregister
    exact ⟨registry', log', hrest⟩
  | error e s' =>
    rw [hr] at hregister
    exact ⟨registry, log, hregister⟩

/-- Giving the computations changes nothing but what is known. -/
theorem final_registerAll (s : State family) :
    ∃ registry log, registerAll.final s = { s with registry := registry, log := log } := by
  unfold registerAll
  refine final_register_bind s fun _ s₁ => ?_
  refine final_register_bind s₁ fun _ s₂ => ?_
  refine final_register_bind s₂ fun _ s₃ => ?_
  exact final_register_bind s₃ fun _ s₄ => ⟨s₄.registry, s₄.log, rfl⟩

/-- Where no computation was known, all are known once they are given. -/
theorem knows_registerAll {s : State family} (h : s.registry = {}) (k : Kind) :
    (registerAll.final s).registry.knows k := by
  obtain ⟨options, registry, cache, recorder, diagnostics, statistics, graph, log, world⟩ := s
  subst h
  cases k <;> rfl

theorem Composed.registerAll {G : Misplacing} {files : List SourceFile} {s : State family}
    (h : Composed G files s) : Composed G files (registerAll.final s) := by
  have hknown : ∀ k, (Compiler.registerAll.final s).registry.knows k := by
    rcases h.orderly.given with hknown | hnone
    · exact ((h.orderly.ready hknown).quiet (quiet_registerAll s)).known
    · exact knows_registerAll hnone
  obtain ⟨registry, log, hfinal⟩ := final_registerAll s
  rw [hfinal] at hknown ⊢
  exact ⟨h.orderly.congr rfl rfl h.orderly.closed (.inl hknown),
    h.legible.congr (fun _ => rfl) rfl⟩

/-! ## Sessions -/

namespace Session

/-- The step gives a file definitions as its own, some of which are of other files. -/
def Misplaces (s : Session) (st : Step) (f : SourceFile) (ds : List Definition) : Prop :=
  ∃ g, st = .put g ∧ s.given? g = some ⟨.parseModule f, some ds⟩ ∧ ∃ d ∈ ds, d.file ≠ f

/-- What holds between steps. -/
structure Shows (G : Misplacing) (files : List SourceFile) (s : Session) : Prop where
  files_eq : s.files = files
  held : ∀ d ∈ s.held, Declared files d
  composed : Composed G files s.state

section Shows

variable {G : Misplacing} {files : List SourceFile} {s : Session}

theorem Shows.mem_of_file? (h : Shows G files s) {i : Nat} {f : SourceFile}
    (hf : s.file? i = some f) : f ∈ files := by
  rw [← h.files_eq]
  exact List.mem_of_getElem? hf

theorem Shows.sited_of_request? (h : Shows G files s) {q : Query} {r : Request}
    (hr : s.request? q = some r) : Sited files r := by
  cases q with
  | value i =>
    obtain ⟨d, hd, rfl⟩ := Option.map_eq_some_iff.1 hr
    exact sited_value (h.held d (List.mem_of_getElem? hd))
  | parseModule i | lookup i name | check i | emit i =>
    obtain ⟨f, hf, rfl⟩ := Option.map_eq_some_iff.1 hr
    exact sited_of_file (h.mem_of_file? hf) rfl rfl

/-- What is given has declarations of the files, in their places unless the step misplaces them. -/
theorem Shows.placed_of_given? (h : Shows G files s) {g : Given} {r : Request}
    {out : Request.Output r} (hg : s.given? g = some ⟨r, out⟩)
    (hG : ∀ f ds, s.Misplaces (.put g) f ds → G f ds) : Placed G files r out := by
  have hgives : Gives (Declared files) r out := gives_of_given? h.held hg
  cases r with
  | parseModule f =>
    rintro ds rfl
    refine ⟨hgives ds rfl, ?_⟩
    by_cases hown : ∀ d ∈ ds, d.file = f
    · exact .inl hown
    · simp only [not_forall] at hown
      obtain ⟨d, hd, hne⟩ := hown
      exact .inr (hG f ds ⟨g, rfl, hg, d, hd, hne⟩)
  | lookup f name => exact hgives
  | value | check | emit => trivial

/-- What a step leaves, whether it ends or stops. -/
abbrev LandsWell (G : Misplacing) (files : List SourceFile)
    (m : Eval family (Response × List Definition)) (s : State family) : Prop :=
  Eval.Lands (Composed G files) m s fun x => ∀ d ∈ x.2, Declared files d

theorem Shows.lands_evaluate (h : Shows G files s) {r : Request} (hr : Sited files r)
    {s₁ : State family} (hs₁ : Composed G files s₁) :
    Eval.Lands (Composed G files) (Compiler.evaluate s.files r) s₁ fun o =>
      ∀ out, o = .ok out → Placed G files r out := by
  rw [h.files_eq, Eval.Lands, Compiler.evaluate, Eval.get_bind]
  exact hs₁.lands_evaluate hr

theorem Shows.lands_command (h : Shows G files s) {c : Command family}
    (hc : Composed G files ((c.run rules (depth s.files s.state)).final s.state)) :
    LandsWell G files (s.command c) s.state := by
  rw [LandsWell, Eval.Lands, command, Eval.get_bind]
  exact (Eval.lands_of_final hc).bind fun _ _ hs' _ => Eval.lands_pure hs' h.held

theorem Shows.lands_commandOn (h : Shows G files s) {q : Query} {c : Request → Command family}
    (hc : ∀ r, Sited files r →
      Composed G files (((c r).run rules (depth s.files s.state)).final s.state)) :
    LandsWell G files (s.commandOn q c) s.state := by
  unfold commandOn
  cases hr : s.request? q with
  | none => exact Eval.lands_pure h.composed h.held
  | some r => exact h.lands_command (hc r (h.sited_of_request? hr))

/-- The declarations of a file that are held from now on. -/
theorem Shows.lands_hold (h : Shows G files s) (i : Nat) :
    LandsWell G files (s.act (.hold i)) s.state := by
  rw [act]
  cases hf : s.file? i with
  | none => exact Eval.lands_pure h.composed h.held
  | some f =>
    have hmem := h.mem_of_file? hf
    refine (h.lands_evaluate (sited_of_file hmem rfl rfl) h.composed).bind fun o s₁ hs₁ ho => ?_
    refine ⟨hs₁, List.forall_mem_append.2 ⟨h.held, fun d hd => ?_⟩⟩
    cases o with
    | error c => cases hd
    | ok ds? =>
      cases ds? with
      | none => cases hd
      | some ds => exact (ho _ rfl ds rfl).1 d hd

theorem Shows.lands_holdLookup (h : Shows G files s) (i : Nat) (name : String) :
    LandsWell G files (s.act (.holdLookup i name)) s.state := by
  rw [act]
  cases hf : s.file? i with
  | none => exact Eval.lands_pure h.composed h.held
  | some f =>
    have hmem := h.mem_of_file? hf
    refine (h.lands_evaluate (sited_of_file hmem rfl rfl) h.composed).bind fun o s₁ hs₁ ho => ?_
    cases o with
    | error c => exact ⟨hs₁, h.held⟩
    | ok d? =>
      cases d? with
      | none => exact ⟨hs₁, h.held⟩
      | some d =>
        refine ⟨hs₁, List.forall_mem_append.2 ⟨h.held, List.forall_mem_singleton.2 ?_⟩⟩
        exact ho _ rfl d rfl

theorem Shows.lands_act (h : Shows G files s) {st : Step}
    (hG : ∀ f ds, s.Misplaces st f ds → G f ds) : LandsWell G files (s.act st) s.state := by
  have hquiet : ∀ c : Command family, ¬ c.IsEvaluate → ¬ c.IsRegister → ¬ c.IsReport →
      ¬ c.IsPut → Composed G files ((c.run rules (depth s.files s.state)).final s.state) := by
    intro c he hg hr hp
    refine h.composed.command he hg hr ?_ _
    rintro r out rfl
    exact absurd trivial hp
  cases st with
  | register =>
    rw [act]
    exact (Eval.lands_of_final h.composed.registerAll).bind fun _ _ hs' _ =>
      Eval.lands_pure hs' h.held
  | evaluate q =>
    refine h.lands_commandOn fun r hr => ?_
    rw [h.files_eq]
    exact h.composed.evaluate_command hr
  | evaluateD g =>
    rw [act]
    cases hg : s.given? g with
    | none => exact Eval.lands_pure h.composed h.held
    | some x =>
      refine (h.lands_evaluate (h.sited_of_request? (request?_of_given? hg)) h.composed).bind ?_
      exact fun _ _ hs' _ => Eval.lands_pure hs' h.held
  | both i =>
    rw [act]
    cases hf : s.file? i with
    | none => exact Eval.lands_pure h.composed h.held
    | some f =>
      have hmem := h.mem_of_file? hf
      refine (h.lands_evaluate (sited_of_file hmem rfl rfl) h.composed).bind fun _ s₁ hs₁ _ => ?_
      refine (h.lands_evaluate (sited_of_file hmem rfl rfl) hs₁).bind ?_
      exact fun _ _ hs' _ => Eval.lands_pure hs' h.held
  | hold i => exact h.lands_hold i
  | holdLookup i name => exact h.lands_holdLookup i name
  | put g =>
    rw [act]
    cases hg : s.given? g with
    | none => exact Eval.lands_pure h.composed h.held
    | some x =>
      obtain ⟨r, out⟩ := x
      refine h.lands_command (h.composed.command id id id ?_ _)
      rintro _ _ ⟨⟩
      exact h.placed_of_given? hg hG
  | isCached q => exact h.lands_commandOn fun r _ => hquiet (.isCached r) id id id id
  | clear q => exact h.lands_commandOn fun r _ => hquiet (.clear r) id id id id
  | dump q => exact h.lands_commandOn fun r _ => hquiet (.dump r) id id id id
  | graphviz | clearCache | references | statistics | diagnostics | takeDiagnostics =>
    exact h.lands_command (hquiet _ id id id id)
  | render color => exact ⟨h.composed, h.held⟩

/-- Every step keeps this, also one that stops. -/
theorem Shows.step (h : Shows G files s) {st : Step}
    (hG : ∀ f ds, s.Misplaces st f ds → G f ds) : Shows G files (s.step st).2 := by
  have hlands := h.lands_act hG
  rw [LandsWell, Eval.Lands] at hlands
  rw [Session.step, EStateM.run]
  cases hact : s.act st s.state with
  | ok x s' =>
    rw [hact] at hlands
    exact ⟨h.files_eq, hlands.2, hlands.1⟩
  | error e s' =>
    rw [hact] at hlands
    exact ⟨h.files_eq, h.held, hlands⟩

/-- One of the steps gives the file definitions of other files. -/
def MisplacesIn (s : Session) (steps : List Step) (f : SourceFile) (ds : List Definition) : Prop :=
  ∃ k st, steps[k]? = some st ∧ (s.after (steps.take k)).Misplaces st f ds

theorem Shows.after (h : Shows G files s) {steps : List Step}
    (hG : ∀ f ds, s.MisplacesIn steps f ds → G f ds) : Shows G files (s.after steps) := by
  induction steps generalizing s with
  | nil => exact h
  | cons st steps ih =>
    refine ih (h.step fun f ds hst => hG f ds ⟨0, st, rfl, hst⟩) fun f ds hrest => ?_
    obtain ⟨k, st', hk, hst'⟩ := hrest
    exact hG f ds ⟨k + 1, st', hk, hst'⟩

end Shows

theorem composed_empty (G : Misplacing) (files : List SourceFile) (options : Options) (log : Log) :
    Composed G files { options := options, log := log, world := {} } := by
  have hnone : ∀ r : Request,
      State.served? (F := family) { options := options, log := log, world := {} } r = none := by
    intro r
    unfold State.served?
    split
    · rfl
    · split <;> rfl
  constructor
  · constructor
    case cache_owned => exact Tables.owned_empty
    case recorded_owned => exact Tables.owned_empty
    case closed => rfl
    case given => exact .inr rfl
  · constructor
    · intro r out hout
      rw [hnone] at hout
      cases hout
    · intro d hd
      cases hd

theorem start_shows (G : Misplacing) (files : List SourceFile) (options : Options)
    (register : Bool) : Shows G files (start files options register) := by
  have hempty := composed_empty G files options {}
  have hheld : ∀ d ∈ ([] : List Definition), Declared files d := by
    intro d hd
    cases hd
  cases register with
  | false => exact ⟨rfl, hheld, hempty⟩
  | true => exact ⟨rfl, hheld, hempty.registerAll⟩

/-! ## What is drawn -/

/-- Whatever a session reported is a label or a footer where it should be. -/
structure Labelled (s : Session) : Prop where
  /-- Every diagnostic is a note without a location or is in one of the files, and not empty. -/
  located : ∀ x ∈ s.state.diagnostics, x.severity = .note ∧ x.location = none ∨
    ∃ f ∈ s.files, ∃ span, x.location = some ⟨f.id, span⟩ ∧ 0 < span.length
  /-- Every location is a label, with the severity of its diagnostic and in order. -/
  labelled : ((Report.ofList s.files s.state.diagnostics).flatMap fun r =>
    r.labels.map fun l => (l.severity, l.location)) =
      s.state.diagnostics.filterMap fun x => x.location.map fun l => (x.severity, l)
  /-- Every footer is a note without a location. -/
  footed : ∀ r ∈ Report.ofList s.files s.state.diagnostics, ∀ footer ∈ r.footers,
    ∃ x ∈ s.state.diagnostics, x.location = none ∧ footer = ⟨.note, x.message⟩
  /-- Every label is put in the text of its file, under the name of the file. -/
  sliced : ∀ r ∈ Report.ofList s.files s.state.diagnostics, ∀ l ∈ r.labels,
    ∃ f ∈ s.files, f.id = l.location.file ∧ ∃ sl ∈ (r.snippet s.files).slices,
      sl.content = f.content.toList ∧ sl.origin = f.name ∧
      ⟨l.location.span.start, l.location.span.stop, l.severity, l.text.getD ""⟩ ∈ sl.labels

section Drawn

variable {G : Misplacing} {files : List SourceFile} {s : Session}
  (hfiles : ∀ f ∈ files, ∀ g ∈ files, f.id = g.id → f = g)

include hfiles

theorem Shows.labelled (h : Shows G files s) : s.Labelled := by
  obtain rfl := h.files_eq
  have hknown := h.composed.legible.known
  constructor
  case located =>
    intro x hx
    rcases hknown x hx with hnote | ⟨⟨id, span⟩, hl, f, hf, rfl, hspan⟩
    · exact .inl hnote
    · exact .inr ⟨f, hf, span, hl, hspan⟩
  case labelled => exact Report.places_ofList hfiles hknown
  case footed => exact fun r hr footer => Report.footer_of_known hfiles hknown hr
  case sliced => exact fun r hr l => Report.exists_slice hfiles hknown hr

end Drawn

end Session

end Demand.Compiler
