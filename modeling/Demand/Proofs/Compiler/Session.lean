import Demand.Compiler.Session
import Demand.Proofs.Compiler.Bodies
import Demand.Proofs.Engine.Stepper

/-!
# Sessions answer with the meaning

After any steps that give no results, and in whatever order requests were evaluated and results
dropped, every request about a file is answered, and with what it should give
(`Session.answers_eq_meaning`). What every step keeps is `Session.Sound`; definitions of earlier
readings may be held, active and cached beside later ones. What a step does to the state, whatever
it answers, is commands that evaluate nothing or the evaluations it asks for
(`Session.Sound.step_evaluated`).
-/

namespace Demand.Compiler

open Demand.Language

/-! ## Evaluations from outside -/

theorem Sits.single {s : State family} (h : Sits [] s) (r : Request) : Sits [r] s := by
  cases r with
  | value d => exact h.push_value (.inl rfl)
  | parseModule | lookup | check | emit => exact h.push rfl

theorem length_declarations_le_total {files : List SourceFile} {f : SourceFile} (hf : f ∈ files) :
    (declarations f).length ≤ files.foldr (fun f n => f.content.length + n) 0 := by
  induction files with
  | nil => cases hf
  | cons g files ih =>
    rw [List.foldr_cons]
    rcases List.mem_cons.1 hf with rfl | hf
    · exact Nat.le_add_right_of_le (length_declarations f)
    · exact Nat.le_add_left_of_le (ih hf)

/-- There is fuel enough for a request about one of the files. -/
theorem room_start {files : List SourceFile} {r : Request} (hr : r.file ∈ files)
    (s : State family) :
    Room (files.foldr (fun f n => f.content.length + n) 0) (depth files s) [] r := by
  refine ⟨.start r, List.nodup_nil, length_declarations_le_total hr, ?_⟩
  cases r <;> simp only [Request.need, depth, values, List.filterMap_nil, List.length_nil] <;>
    omega

/-- A request about one of the files is answered with what it should give. -/
theorem ends_evaluate {files : List SourceFile} {r : Request} (hr : r.file ∈ files)
    {s s₀ : State family} (hs : Sits [] s) :
    Eval.Ends (fun _ => False) (rules.evaluate (depth files s₀) [] r) s fun o s' =>
      Sits [] s' ∧ ∃ out, o = .ok out ∧ Meets r out := by
  refine ((compiling _).ends lawful _ [] r s ⟨room_start hr s₀, hs.single r⟩).mono ?_
  rintro o s' ⟨hanswers, hanswered⟩
  refine ⟨hs.persists hanswers.toPersists hanswered.correct, ?_⟩
  cases o with
  | ok out => exact ⟨out, rfl, hanswered.meets out rfl⟩
  | error c => exact absurd (hanswers.error_iff.1 ⟨c, rfl⟩) (List.not_mem_nil)

theorem Sits.effect {s s' : State family} (h : Sits [] s) {c : Command family} (hc : ¬ c.IsPut)
    (he : c.Effect s s') : Sits [] s' where
  correct r out hr := h.correct r out (he.served hc r out hr)
  owned := ⟨he.cache_owned hc h.owned.1, he.recorded_owned h.owned.2⟩
  known k := he.knows k (h.known k)
  found := by simp [values]

/-- The state changes by commands that evaluate nothing and give no results. -/
def Quiet : State family → State family → Prop :=
  Relation.ReflTransGen fun s s' => ∃ c : Command family, ¬ c.IsPut ∧ c.Effect s s'

/-- What every such command keeps. -/
theorem Quiet.keeps {I : State family → Prop}
    (hI : ∀ (c : Command family) (s s' : State family), ¬ c.IsPut → c.Effect s s' → I s → I s')
    {s s' : State family} (hq : Quiet s s') (h : I s) : I s' := by
  induction hq with
  | refl => exact h
  | tail _ hstep ih =>
    obtain ⟨c, hc, he⟩ := hstep
    exact hI c _ _ hc he ih

theorem Sits.quiet {s s' : State family} (h : Sits [] s) (hq : Quiet s s') : Sits [] s' :=
  hq.keeps (fun _ _ _ hc he h => h.effect hc he) h

theorem quiet_register_bind {zone : Zone} {kinds : List Kind}
    {f : ZoneRules family → Eval family Unit} (s : State family)
    (hf : ∀ z s', Quiet s' ((f z).final s')) :
    Quiet s ((Eval.register zone kinds >>= f).final s) := by
  have heffect := Command.effect_register (F := family) .statistics s id zone kinds
  rw [Eval.final_bind]
  unfold Eval.final at heffect
  cases hr : Eval.register (F := family) zone kinds s with
  | ok z s' =>
    rw [hr] at heffect
    exact .head ⟨.statistics, id, heffect⟩ (hf z s')
  | error e s' =>
    rw [hr] at heffect
    exact .single ⟨.statistics, id, heffect⟩

/-- Giving the computations again changes no result. -/
theorem quiet_registerAll (s : State family) : Quiet s (registerAll.final s) := by
  unfold registerAll
  refine quiet_register_bind s fun _ s₁ => ?_
  refine quiet_register_bind s₁ fun _ s₂ => ?_
  refine quiet_register_bind s₂ fun _ s₃ => ?_
  exact quiet_register_bind s₃ fun _ _ => .refl

/-! ## Steps -/

/-- The query for the request that a result is given for. -/
def Given.query : Given → Query
  | parseModule f _ => .parseModule f
  | lookup f name _ => .lookup f name
  | value h _ => .value h
  | check f _ => .check f
  | emit f _ => .emit f

/-- The step gives a result. -/
def Step.IsPut : Step → Prop
  | put _ => True
  | _ => False

/-- The step evaluates requests and does nothing else. -/
def Step.IsEvaluate : Step → Prop
  | evaluate _ | evaluateD _ | both _ | hold _ | holdLookup .. => True
  | _ => False

namespace Step

/-- The step evaluates requests, drops a result, or drops all. -/
def Works : Step → Prop
  | evaluate _ | evaluateD _ | both _ | hold _ | holdLookup .. | clear _ | clearCache => True
  | _ => False

theorem Works.not_isPut {st : Step} (h : st.Works) : ¬ st.IsPut := by
  cases st with
  | put g => exact h.elim
  | _ => exact id

theorem Works.mayStop {st : Step} (h : st.Works) : st.mayStop = false := by
  cases st with
  | put g => exact h.elim
  | register => exact h.elim
  | _ => rfl

end Step

namespace Session

/-- The session after steps one after the other. -/
def after (s : Session) (steps : List Step) : Session :=
  steps.foldl (fun s st => (s.step st).2) s

/-- The definition is one of a file. -/
def Declared (files : List SourceFile) (d : Definition) : Prop :=
  d.file ∈ files ∧ d.declaration ∈ declarations d.file

/-- What holds between steps. -/
structure Sound (files : List SourceFile) (s : Session) : Prop where
  files_eq : s.files = files
  held : ∀ d ∈ s.held, Declared files d
  sits : Sits [] s.state

section Sound

variable {files : List SourceFile} {s : Session}

theorem Sound.mem_of_file? (h : Sound files s) {i : Nat} {f : SourceFile}
    (hf : s.file? i = some f) : f ∈ files := by
  rw [← h.files_eq]
  exact List.mem_of_getElem? hf

/-- Requests that steps can name are about the files. -/
theorem mem_of_request? (hheld : ∀ d ∈ s.held, d.file ∈ s.files) {q : Query} {r : Request}
    (hr : s.request? q = some r) : r.file ∈ s.files := by
  cases q with
  | value i =>
    obtain ⟨d, hd, rfl⟩ := Option.map_eq_some_iff.1 hr
    exact hheld d (List.mem_of_getElem? hd)
  | parseModule i | lookup i name | check i | emit i =>
    obtain ⟨f, hf, rfl⟩ := Option.map_eq_some_iff.1 hr
    exact List.mem_of_getElem? hf

theorem given?_parseModule {i : Nat} {held : Option (List Nat)}
    {x : (r : Request) × Request.Output r} (h : s.given? (.parseModule i held) = some x) :
    ∃ f ds?, s.file? i = some f ∧ s.module? held = some ds? ∧ x = ⟨.parseModule f, ds?⟩ := by
  obtain ⟨f, hf, hrest⟩ := Option.bind_eq_some_iff.1 h
  obtain ⟨ds?, hds, hx⟩ := Option.bind_eq_some_iff.1 hrest
  exact ⟨f, ds?, hf, hds, (Option.some.inj hx).symm⟩

theorem given?_lookup {i : Nat} {name : String} {held : Option Nat}
    {x : (r : Request) × Request.Output r} (h : s.given? (.lookup i name held) = some x) :
    ∃ f d?, s.file? i = some f ∧ s.definition? held = some d? ∧ x = ⟨.lookup f name, d?⟩ := by
  obtain ⟨f, hf, hrest⟩ := Option.bind_eq_some_iff.1 h
  obtain ⟨d?, hd, hx⟩ := Option.bind_eq_some_iff.1 hrest
  exact ⟨f, d?, hf, hd, (Option.some.inj hx).symm⟩

/-- A result is given for the request that its query names. -/
theorem request?_of_given? {g : Given} {x : (r : Request) × Request.Output r}
    (h : s.given? g = some x) : s.request? g.query = some x.1 := by
  cases g with
  | parseModule i held =>
    obtain ⟨f, ds?, hf, -, rfl⟩ := given?_parseModule h
    exact Option.map_eq_some_iff.2 ⟨f, hf, rfl⟩
  | lookup i name held =>
    obtain ⟨f, d?, hf, -, rfl⟩ := given?_lookup h
    exact Option.map_eq_some_iff.2 ⟨f, hf, rfl⟩
  | value | check | emit =>
    obtain ⟨y, hy, rfl⟩ := Option.map_eq_some_iff.1 h
    exact Option.map_eq_some_iff.2 ⟨y, hy, rfl⟩

theorem mem_of_given? (hheld : ∀ d ∈ s.held, d.file ∈ s.files) {g : Given}
    {x : (r : Request) × Request.Output r} (hx : s.given? g = some x) : x.1.file ∈ s.files :=
  mem_of_request? hheld (request?_of_given? hx)

theorem Sound.file_of_held (h : Sound files s) : ∀ d ∈ s.held, d.file ∈ s.files := by
  intro d hd
  rw [h.files_eq]
  exact (h.held d hd).1

theorem Sound.mem_of_request? (h : Sound files s) {q : Query} {r : Request}
    (hr : s.request? q = some r) : r.file ∈ files := by
  rw [← h.files_eq]
  exact Session.mem_of_request? h.file_of_held hr

theorem Sound.mem_of_given? (h : Sound files s) {g : Given} {x : (r : Request) × Request.Output r}
    (hx : s.given? g = some x) : x.1.file ∈ files := by
  rw [← h.files_eq]
  exact Session.mem_of_given? h.file_of_held hx

theorem declared_of_parse {f : SourceFile} (hf : f ∈ files) {ds : List Definition}
    (h : Meets (.parseModule f) (some ds)) : ∀ d ∈ ds, Declared files d := by
  intro d hd
  have hfile : d.file = f := h.2 ds rfl d hd
  rw [Declared, hfile, declarations_eq h.1.symm]
  exact ⟨hf, List.mem_map_of_mem hd⟩

theorem declared_of_lookup {f : SourceFile} (hf : f ∈ files) {name : String} {d : Definition}
    (h : Meets (.lookup f name) (some d)) : Declared files d := by
  have hfile : d.file = f := h.2 d rfl
  rw [Declared, hfile]
  exact ⟨hf, List.mem_of_find?_eq_some h.1.symm⟩

/-! ### Steps that end

A step ends and keeps what holds of the state and of the held definitions, if evaluations and
commands do. -/

/-- The definitions in the result of a request are some of these. -/
def Gives (D : Definition → Prop) : (r : Request) → r.Output → Prop
  | .parseModule _, ds? => ∀ ds ∈ ds?, ∀ d ∈ ds, D d
  | .lookup .., d? => ∀ d ∈ d?, D d
  | _, _ => True

theorem mem_held_of_mapM {hs : List Nat} {ds : List Definition} (h : hs.mapM s.held? = some ds) :
    ∀ d ∈ ds, d ∈ s.held := by
  induction hs generalizing ds with
  | nil =>
    rw [List.mapM_nil] at h
    cases h
    simp
  | cons i hs ih =>
    rw [List.mapM_cons] at h
    obtain ⟨d, hd, hrest⟩ := Option.bind_eq_some_iff.1 h
    obtain ⟨ds', hds', hlast⟩ := Option.bind_eq_some_iff.1 hrest
    cases hlast
    exact List.forall_mem_cons.2 ⟨List.mem_of_getElem? hd, ih hds'⟩

/-- Only definitions can be given that are held. -/
theorem gives_of_given? {D : Definition → Prop} (hheld : ∀ d ∈ s.held, D d) {g : Given}
    {r : Request} {out : Request.Output r} (h : s.given? g = some ⟨r, out⟩) : Gives D r out := by
  cases g with
  | parseModule i held =>
    obtain ⟨f, ds?, -, hds, ⟨⟩⟩ := given?_parseModule h
    rintro ds rfl d hd
    cases held with
    | none => cases hds
    | some hs =>
      obtain ⟨_, hmap, ⟨⟩⟩ := Option.map_eq_some_iff.1 hds
      exact hheld d (mem_held_of_mapM hmap d hd)
  | lookup i name held =>
    obtain ⟨f, d?, -, hd, ⟨⟩⟩ := given?_lookup h
    rintro d rfl
    cases held with
    | none => cases hd
    | some n =>
      obtain ⟨_, hat, ⟨⟩⟩ := Option.map_eq_some_iff.1 hd
      exact hheld d (List.mem_of_getElem? hat)
  | value | check | emit =>
    obtain ⟨y, -, hy⟩ := Option.map_eq_some_iff.1 h
    cases hy
    trivial

section Ends

variable {I : State family → Prop} {D : Definition → Prop}

/-- What a step leaves. -/
abbrev Leaving (I : State family → Prop) (D : Definition → Prop)
    (x : Response × List Definition) (s' : State family) : Prop :=
  (∀ d ∈ x.2, D d) ∧ I s'

theorem ends_command_of (hheld : ∀ d ∈ s.held, D d) {c : Command family}
    (hc : Eval.Ends (fun _ => False) (c.run rules (depth s.files s.state)) s.state fun _ s' => I s') :
    Eval.Ends (fun _ => False) (s.command c) s.state (Leaving I D) :=
  Eval.ends_bind.2 (Eval.ends_bind.2 (hc.mono fun _ _ hs' => ⟨hheld, hs'⟩))

theorem ends_commandOn_of (hheld : ∀ d ∈ s.held, D d) (hs : I s.state) {q : Query}
    {c : Request → Command family}
    (hc : ∀ r, s.request? q = some r → Eval.Ends (fun _ => False)
      ((c r).run rules (depth s.files s.state)) s.state fun _ s' => I s') :
    Eval.Ends (fun _ => False) (s.commandOn q c) s.state (Leaving I D) := by
  unfold commandOn
  cases hr : s.request? q with
  | none => exact ⟨hheld, hs⟩
  | some r => exact ends_command_of hheld (hc r hr)

theorem ends_act_of (hfile : ∀ d, D d → d.file ∈ s.files) (hheld : ∀ d ∈ s.held, D d)
    (hs : I s.state)
    (hevaluate : ∀ (r : Request) (s₁ : State family), r.file ∈ s.files → I s₁ →
      Eval.Ends (fun _ => False) (Compiler.evaluate s.files r) s₁ fun o s' =>
        I s' ∧ ∃ out, o = .ok out ∧ Gives D r out)
    (hcommand : ∀ c : Command family, ¬ c.IsEvaluate → ¬ c.IsPut → ¬ c.IsRegister →
      Eval.Ends (fun _ => False) (c.run rules (depth s.files s.state)) s.state fun _ s' => I s')
    {st : Step} (hst : st.mayStop = false) :
    Eval.Ends (fun _ => False) (s.act st) s.state (Leaving I D) := by
  cases st with
  | register | put g => cases hst
  | evaluate q =>
    refine ends_commandOn_of hheld hs fun r hr => ?_
    have hmem := mem_of_request? (fun d hd => hfile d (hheld d hd)) hr
    have hends := hevaluate r s.state hmem hs
    rw [Compiler.evaluate, Eval.ends_bind, Eval.ends_get] at hends
    exact Eval.ends_bind.2 (Eval.ends_bind.2 (hends.mono fun _ _ h => h.1))
  | evaluateD g =>
    rw [act]
    cases hg : s.given? g with
    | none => exact ⟨hheld, hs⟩
    | some x =>
      have hmem := mem_of_given? (fun d hd => hfile d (hheld d hd)) hg
      exact (hevaluate x.1 s.state hmem hs).bind fun _ _ hs' => ⟨hheld, hs'.1⟩
  | both i =>
    rw [act]
    cases hf : s.file? i with
    | none => exact ⟨hheld, hs⟩
    | some f =>
      have hmem : f ∈ s.files := List.mem_of_getElem? hf
      refine (hevaluate (.check f) s.state hmem hs).bind fun _ s₁ hs₁ => ?_
      exact (hevaluate (.emit f) s₁ hmem hs₁.1).bind fun _ _ hs' => ⟨hheld, hs'.1⟩
  | hold i =>
    rw [act]
    cases hf : s.file? i with
    | none => exact ⟨hheld, hs⟩
    | some f =>
      refine (hevaluate (.parseModule f) s.state (List.mem_of_getElem? hf) hs).bind ?_
      rintro _ s₁ ⟨hs₁, ds?, rfl, hds⟩
      refine ⟨fun d hd => ?_, hs₁⟩
      rcases List.mem_append.1 hd with hd | hd
      · exact hheld d hd
      · cases ds? with
        | none => cases hd
        | some ds => exact hds ds rfl d hd
  | holdLookup i name =>
    rw [act]
    cases hf : s.file? i with
    | none => exact ⟨hheld, hs⟩
    | some f =>
      refine (hevaluate (.lookup f name) s.state (List.mem_of_getElem? hf) hs).bind ?_
      rintro _ s₁ ⟨hs₁, d?, rfl, hd?⟩
      cases d? with
      | none => exact ⟨hheld, hs₁⟩
      | some d =>
        refine ⟨fun d' hd' => ?_, hs₁⟩
        rcases List.mem_append.1 hd' with hd' | hd'
        · exact hheld d' hd'
        · rw [List.mem_singleton.1 hd']
          exact hd? d rfl
  | isCached q => exact ends_commandOn_of hheld hs fun r _ => hcommand (.isCached r) id id id
  | clear q => exact ends_commandOn_of hheld hs fun r _ => hcommand (.clear r) id id id
  | dump q => exact ends_commandOn_of hheld hs fun r _ => hcommand (.dump r) id id id
  | graphviz | clearCache | references | statistics | diagnostics | takeDiagnostics =>
    exact ends_command_of hheld (hcommand _ id id id)
  | render color => exact ⟨hheld, hs⟩

end Ends

theorem Sound.ends_evaluate (h : Sound files s) {r : Request} (hr : r.file ∈ files)
    {s₁ : State family} (hs : Sits [] s₁) :
    Eval.Ends (fun _ => False) (Compiler.evaluate s.files r) s₁ fun o s' =>
      Sits [] s' ∧ ∃ out, o = .ok out ∧ Meets r out := by
  rw [h.files_eq]
  exact Eval.ends_bind.2 (Compiler.ends_evaluate hr hs)

/-- An evaluation as a step reports what the request should give. -/
theorem Sound.ends_evaluateStep (h : Sound files s) {q : Query} {r : Request}
    (hr : s.request? q = some r) :
    Eval.Ends (fun _ => False) (s.act (.evaluate q)) s.state fun x s' =>
      (∃ out, x = (.reply (.answers [⟨r, .ok out⟩]), s.held) ∧ Meets r out) ∧ Sits [] s' := by
  rw [act, commandOn, hr]
  refine Eval.ends_bind.2 (Eval.ends_bind.2 (Eval.ends_bind.2 (Eval.ends_bind.2 ?_)))
  rw [h.files_eq]
  refine (Compiler.ends_evaluate (h.mem_of_request? hr) h.sits).mono ?_
  rintro o s' ⟨hs', out, rfl, hout⟩
  exact ⟨⟨out, rfl, hout⟩, hs'⟩

theorem gives_of_meets {r : Request} (hr : r.file ∈ files) {out : Request.Output r}
    (h : Meets r out) : Gives (Declared files) r out := by
  cases r with
  | parseModule f =>
    rintro ds rfl
    exact declared_of_parse hr h
  | lookup f name =>
    rintro d rfl
    exact declared_of_lookup hr h
  | value | check | emit => trivial

/-- Every step but giving computations or results ends. -/
theorem Sound.ends_act (h : Sound files s) {st : Step} (hst : st.mayStop = false) :
    Eval.Ends (fun _ => False) (s.act st) s.state (Leaving (Sits []) (Declared files)) := by
  refine ends_act_of (fun d hd => by rw [h.files_eq]; exact hd.1) h.held h.sits
    (fun r s₁ hr hs₁ => ?_) (fun c he hp hg => ?_) hst
  · rw [h.files_eq] at hr
    refine (h.ends_evaluate hr hs₁).mono ?_
    rintro o s' ⟨hs', out, rfl, hout⟩
    exact ⟨hs', out, rfl, gives_of_meets hr hout⟩
  · exact (Command.ends lawful he hp hg h.sits.owned h.sits.known _).mono
      fun _ _ heffect => h.sits.effect hp heffect

theorem step_of_ok {st : Step} {response : Response} {held : List Definition} {s' : State family}
    (h : s.act st s.state = .ok (response, held) s') :
    s.step st = (⟨.ok response, s'.diagnostics.length⟩, { s with held := held, state := s' }) := by
  rw [step, show (s.act st).run s.state = _ from h]

/-- A step that holds on to nothing new leaves what its action leaves, also if it stops. -/
theorem step_of_act {α : Type} {st : Step} {m : Eval family α} {f : α → Response}
    (h : s.act st s.state = (do return (f (← m), s.held) : Eval family _) s.state) :
    (s.step st).2 = { s with state := m.final s.state } := by
  rw [step, EStateM.run, h, Eval.final]
  cases hr : m s.state with
  | ok a s' =>
    rw [Eval.bind_apply hr]
    rfl
  | error e s' =>
    have hstop : (do return (f (← m), s.held) : Eval family (Response × List Definition)) s.state =
        .error e s' := by
      show EStateM.bind m _ s.state = _
      rw [EStateM.bind, hr]
    rw [hstop]

theorem step_register : (s.step .register).2 = { s with state := registerAll.final s.state } :=
  step_of_act (f := fun _ => .reply .done) rfl

theorem step_of_command {st : Step} {c : Command family} (h : s.act st = s.command c) :
    (s.step st).2 =
      { s with state := (c.run rules (depth s.files s.state)).final s.state } :=
  step_of_act (f := .reply) (by rw [h]; rfl)

/-- Every step but giving a result keeps the session sound. -/
theorem Sound.step (h : Sound files s) {st : Step} (hst : ¬ st.IsPut) :
    Sound files (s.step st).2 := by
  cases hstop : st.mayStop with
  | true =>
    -- giving the computations again stops at a fault, and the session goes on
    cases st with
    | register =>
      rw [step_register]
      exact ⟨h.files_eq, h.held, h.sits.quiet (quiet_registerAll s.state)⟩
    | put g => exact absurd trivial hst
    | _ => cases hstop
  | false =>
    obtain ⟨⟨response, held⟩, s', hact, hheld, hs'⟩ := (h.ends_act hstop).exists_ok
    rw [step_of_ok hact]
    exact ⟨h.files_eq, hheld, hs'⟩

theorem Sound.after (h : Sound files s) {steps : List Step} (hsteps : ∀ st ∈ steps, ¬ st.IsPut) :
    Sound files (s.after steps) := by
  induction steps generalizing s with
  | nil => exact h
  | cons st steps ih =>
    have hst := hsteps st List.mem_cons_self
    exact ih (h.step hst) fun st' hst' => hsteps st' (List.mem_cons_of_mem st hst')

/-- No step ends the session. -/
theorem run_cons_of (h : ∀ st : Step, st.mayStop = false → ∃ x s', s.act st s.state = .ok x s')
    (st : Step) (steps : List Step) :
    s.run (st :: steps) = (s.step st).1 :: (s.step st).2.run steps := by
  have hgoes : st.mayStop || (s.step st).1.result.isOk := by
    cases hstop : st.mayStop with
    | true => rfl
    | false =>
      obtain ⟨⟨response, held⟩, s', hact⟩ := h st hstop
      rw [step_of_ok hact]
      rfl
  exact Stepper.run_cons_of_goesOn (m := stepper) hgoes steps

section Runs

variable {P : Session → Prop} {A : Step → Prop}
  (hgoes : ∀ s : Session, P s → ∀ st : Step, st.mayStop = false → ∃ x s', s.act st s.state = .ok x s')
  (hstep : ∀ (s : Session) (st : Step), P s → A st → P (s.step st).2)

include hgoes hstep

theorem length_run_of (h : P s) {steps : List Step} (hsteps : ∀ st ∈ steps, A st) :
    (s.run steps).length = steps.length := by
  induction steps generalizing s with
  | nil => rfl
  | cons st steps ih =>
    have hrest := ih (hstep s st h (hsteps st List.mem_cons_self)) fun st' hst' =>
      hsteps st' (List.mem_cons_of_mem st hst')
    rw [run_cons_of (hgoes s h), List.length_cons, List.length_cons, hrest]

/-- The report of a step is that of the step after those before it. -/
theorem run_getElem?_of (h : P s) {steps : List Step} (hsteps : ∀ st ∈ steps, A st) {k : Nat}
    {st : Step} (hk : steps[k]? = some st) :
    (s.run steps)[k]? = some ((s.after (steps.take k)).step st).1 := by
  induction steps generalizing s k with
  | nil => cases hk
  | cons st' steps ih =>
    rw [run_cons_of (hgoes s h)]
    cases k with
    | zero =>
      cases hk
      rfl
    | succ k =>
      exact ih (hstep s st' h (hsteps st' List.mem_cons_self))
        (fun st hst => hsteps st (List.mem_cons_of_mem st' hst)) hk

end Runs

theorem Sound.exists_act (h : Sound files s) (st : Step) (hst : st.mayStop = false) :
    ∃ x s', s.act st s.state = .ok x s' := by
  obtain ⟨x, s', hact, -⟩ := (h.ends_act hst).exists_ok
  exact ⟨x, s', hact⟩

theorem Sound.length_run (h : Sound files s) {steps : List Step}
    (hsteps : ∀ st ∈ steps, ¬ st.IsPut) : (s.run steps).length = steps.length :=
  length_run_of (fun _ h => h.exists_act) (fun _ _ h => h.step) h hsteps

theorem Sound.run_getElem? (h : Sound files s) {steps : List Step}
    (hsteps : ∀ st ∈ steps, ¬ st.IsPut) {k : Nat} {st : Step} (hk : steps[k]? = some st) :
    (s.run steps)[k]? = some ((s.after (steps.take k)).step st).1 :=
  run_getElem?_of (fun _ h => h.exists_act) (fun _ _ h => h.step) h hsteps hk

end Sound

/-! ## What a step does -/

/-- The file that a step works on. -/
def subject? (s : Session) : Step → Option SourceFile
  | .evaluate q | .clear q => (s.request? q).map Request.file
  | .evaluateD g => (s.given? g).map fun x => x.1.file
  | .both i | .hold i | .holdLookup i _ => s.file? i
  | _ => none

/-- What a step does, its response, and the definitions held after it. -/
inductive Acted (s : Session) : Step → Response → List Definition → State family → Prop
  | evaluate {q : Query} {r : Request} {o : Outcome family r} {s' : State family} :
      s.request? q = some r → Compiler.evaluate s.files r s.state = .ok o s' →
      Acted s (.evaluate q) (.reply (.answers [⟨r, o⟩])) s.held s'
  | evaluateD {g : Given} {r : Request} {d : r.Output} {o : Outcome family r} {s' : State family} :
      s.given? g = some ⟨r, d⟩ → Compiler.evaluate s.files r s.state = .ok o s' →
      Acted s (.evaluateD g) (.output r (o.getD d)) s.held s'
  | both {i : Nat} {f : SourceFile} {o : Outcome family (.check f)} {o' : Outcome family (.emit f)}
      {s₁ s' : State family} : s.file? i = some f →
      Compiler.evaluate s.files (.check f) s.state = .ok o s₁ →
      Compiler.evaluate s.files (.emit f) s₁ = .ok o' s' →
      Acted s (.both i) (.reply (.answers [⟨.check f, o⟩, ⟨.emit f, o'⟩])) s.held s'
  | hold {i : Nat} {f : SourceFile} {o : Outcome family (.parseModule f)}
      {ds : List Definition} {s' : State family} : s.file? i = some f →
      Compiler.evaluate s.files (.parseModule f) s.state = .ok o s' →
      ds = Option.getD (o.getD none) [] →
      Acted s (.hold i) (.held s.held.length (s.held ++ ds).length) (s.held ++ ds) s'
  | holdLookup {i : Nat} {f : SourceFile} {name : String} {o : Outcome family (.lookup f name)}
      {d? : Option Definition} {s' : State family} : s.file? i = some f →
      Compiler.evaluate s.files (.lookup f name) s.state = .ok o s' → d? = o.getD none →
      Acted s (.holdLookup i name) (.lookedUp (d?.map fun d => (s.held.length, s.heldAs d)))
        (s.held ++ d?.toList) s'
  | clear {q : Query} {r : Request} {had : Bool} {s' : State family} : s.request? q = some r →
      Eval.clearResult (F := family) r s.state = .ok had s' →
      Acted s (.clear q) (.reply (.flag had)) s.held s'
  | clearCache {s' : State family} : Eval.clearCache s.state = .ok () s' →
      Acted s .clearCache (.reply .done) s.held s'
  | unknown {st : Step} : st ≠ .clearCache → s.subject? st = none →
      Acted s st .unknown s.held s.state

/-- The requests that a step evaluates from outside, in order. -/
def asked (s : Session) : Step → List Request
  | .evaluate q => (s.request? q).toList
  | .evaluateD g => ((s.given? g).map Sigma.fst).toList
  | .both i => (s.file? i).toList.flatMap fun f => [.check f, .emit f]
  | .hold i => ((s.file? i).map .parseModule).toList
  | .holdLookup i name => ((s.file? i).map fun f => .lookup f name).toList
  | _ => []

/-- Evaluating the requests from outside, one after the other, leads from one state to another. -/
inductive Evaluated (files : List SourceFile) : List Request → State family → State family → Prop
  | nil {s : State family} : Evaluated files [] s s
  | cons {r : Request} {rs : List Request} {s s₁ s' : State family} {o : Outcome family r} :
      Compiler.evaluate files r s = .ok o s₁ → Evaluated files rs s₁ s' →
      Evaluated files (r :: rs) s s'

section Evaluated

variable {files : List SourceFile} {s : Session}

theorem run_of_command {c : Command family} {x : Response × List Definition} {s' : State family}
    (h : s.command c s.state = .ok x s') :
    ∃ reply, c.run rules (depth s.files s.state) s.state = .ok reply s' ∧
      x = (.reply reply, s.held) := by
  obtain ⟨_, _, hget, hrest⟩ := Eval.bind_eq_ok.1 h
  cases hget
  obtain ⟨reply, _, hrun, hlast⟩ := Eval.bind_eq_ok.1 hrest
  cases hlast
  exact ⟨reply, hrun, rfl⟩

/-- What a step that works does. -/
theorem acted_of_act {st : Step} (hst : st.Works) {x : Response}
    {held : List Definition} {s' : State family} (hact : s.act st s.state = .ok (x, held) s') :
    Acted s st x held s' := by
  cases st with
  | evaluate q =>
    rw [act, commandOn] at hact
    cases hr : s.request? q with
    | none =>
      rw [hr] at hact
      cases hact
      exact .unknown (by simp) (by rw [subject?, hr]; rfl)
    | some r =>
      rw [hr] at hact
      obtain ⟨reply, hrun, hx⟩ := run_of_command hact
      obtain ⟨as, _, hall, hreply⟩ := Eval.bind_eq_ok.1 hrun
      cases hreply
      obtain ⟨o, _, rest, ho, hrest, rfl⟩ := Rules.evaluateAll_cons.1 hall
      cases hrest
      cases hx
      exact .evaluate hr ho
  | evaluateD g =>
    rw [act] at hact
    cases hg : s.given? g with
    | none =>
      rw [hg] at hact
      cases hact
      exact .unknown (by simp) (by rw [subject?, hg]; rfl)
    | some given =>
      rw [hg] at hact
      obtain ⟨o, _, ho, hlast⟩ := Eval.bind_eq_ok.1 hact
      cases hlast
      exact .evaluateD hg ho
  | both i =>
    rw [act] at hact
    cases hf : s.file? i with
    | none =>
      rw [hf] at hact
      cases hact
      exact .unknown (by simp) hf
    | some f =>
      rw [hf] at hact
      obtain ⟨o, _, ho, hrest⟩ := Eval.bind_eq_ok.1 hact
      obtain ⟨o', _, ho', hlast⟩ := Eval.bind_eq_ok.1 hrest
      cases hlast
      exact .both hf ho ho'
  | hold i =>
    rw [act] at hact
    cases hf : s.file? i with
    | none =>
      rw [hf] at hact
      cases hact
      exact .unknown (by simp) hf
    | some f =>
      rw [hf] at hact
      obtain ⟨o, _, ho, hlast⟩ := Eval.bind_eq_ok.1 hact
      cases hlast
      exact .hold hf ho rfl
  | holdLookup i name =>
    rw [act] at hact
    cases hf : s.file? i with
    | none =>
      rw [hf] at hact
      cases hact
      exact .unknown (by simp) hf
    | some f =>
      rw [hf] at hact
      obtain ⟨o, _, ho, hlast⟩ := Eval.bind_eq_ok.1 hact
      have hacted := Acted.holdLookup hf ho rfl
      cases hd : Outcome.getD o none with
      | none =>
        simp only [hd] at hlast
        cases hlast
        simpa [hd] using hacted
      | some d =>
        simp only [hd] at hlast
        cases hlast
        simpa [hd] using hacted
  | clear q =>
    rw [act, commandOn] at hact
    cases hr : s.request? q with
    | none =>
      rw [hr] at hact
      cases hact
      exact .unknown (by simp) (by rw [subject?, hr]; rfl)
    | some r =>
      rw [hr] at hact
      obtain ⟨reply, hrun, hx⟩ := run_of_command hact
      obtain ⟨had, _, hclear, hreply⟩ := Eval.bind_eq_ok.1 hrun
      cases hreply
      cases hx
      exact .clear hr hclear
  | clearCache =>
    obtain ⟨reply, hrun, hx⟩ := run_of_command hact
    cases hrun
    cases hx
    exact .clearCache rfl
  | _ => exact hst.elim

theorem quiet_of_command {c : Command family} (he : ¬ c.IsEvaluate) (hp : ¬ c.IsPut)
    {x : Response × List Definition} {s' : State family}
    (h : s.command c s.state = .ok x s') : Quiet s.state s' := by
  obtain ⟨reply, hrun, -⟩ := run_of_command h
  have heffect := Command.effect lawful he (depth s.files s.state) s.state
  rw [Eval.final_of_ok hrun] at heffect
  exact .single ⟨c, hp, heffect⟩

theorem quiet_of_commandOn {q : Query} {c : Request → Command family}
    (he : ∀ r, ¬ (c r).IsEvaluate) (hp : ∀ r, ¬ (c r).IsPut) {x : Response × List Definition}
    {s' : State family} (h : s.commandOn q c s.state = .ok x s') : Quiet s.state s' := by
  unfold commandOn at h
  cases hr : s.request? q with
  | none =>
    rw [hr] at h
    cases h
    exact .refl
  | some r =>
    rw [hr] at h
    exact quiet_of_command (he r) (hp r) h

theorem asked_of_subject? {st : Step} (h : s.subject? st = none) : s.asked st = [] := by
  cases st with
  | evaluate q =>
    have hr : s.request? q = none := Option.map_eq_none_iff.1 h
    rw [asked, hr]
    rfl
  | evaluateD g =>
    have hg : s.given? g = none := Option.map_eq_none_iff.1 h
    rw [asked, hg]
    rfl
  | both i =>
    have hf : s.file? i = none := h
    rw [asked, hf]
    rfl
  | hold i =>
    have hf : s.file? i = none := h
    rw [asked, hf]
    rfl
  | holdLookup i name =>
    have hf : s.file? i = none := h
    rw [asked, hf]
    rfl
  | _ => rfl

/-- What a step that evaluates does to the state is the evaluations it asks for. -/
theorem evaluated_of_act {st : Step} (hst : st.IsEvaluate) {x : Response × List Definition}
    {s' : State family} (h : s.act st s.state = .ok x s') :
    Evaluated s.files (s.asked st) s.state s' := by
  have hworks : st.Works := by
    cases st with
    | evaluate | evaluateD | both | hold | holdLookup => trivial
    | _ => exact hst.elim
  obtain ⟨response, held⟩ := x
  cases acted_of_act hworks h with
  | evaluate hr ho =>
    rw [asked, hr]
    exact .cons ho .nil
  | evaluateD hg ho =>
    rw [asked, hg]
    exact .cons ho .nil
  | both hf ho ho' =>
    rw [asked, hf]
    exact .cons ho (.cons ho' .nil)
  | hold hf ho _ =>
    rw [asked, hf]
    exact .cons ho .nil
  | holdLookup hf ho _ =>
    rw [asked, hf]
    exact .cons ho .nil
  | clear | clearCache => exact hst.elim
  | unknown _ hsubject =>
    rw [asked_of_subject? hsubject]
    exact .nil

/-- Any other step that ends changes the state by commands that evaluate nothing. -/
theorem quiet_of_act {st : Step} (hst : ¬ st.IsEvaluate) (hstop : st.mayStop = false)
    {x : Response × List Definition} {s' : State family} (h : s.act st s.state = .ok x s') :
    Quiet s.state s' := by
  cases st with
  | register | put g => cases hstop
  | isCached q => exact quiet_of_commandOn (fun _ => id) (fun _ => id) h
  | clear q => exact quiet_of_commandOn (fun _ => id) (fun _ => id) h
  | dump q => exact quiet_of_commandOn (fun _ => id) (fun _ => id) h
  | graphviz | clearCache | references | statistics | diagnostics | takeDiagnostics =>
    exact quiet_of_command id id h
  | render color =>
    cases h
    exact .refl
  | evaluate | evaluateD | both | hold | holdLookup => exact absurd trivial hst

theorem asked_eq_nil {st : Step} (hst : ¬ st.IsEvaluate) : s.asked st = [] := by
  cases st with
  | evaluate | evaluateD | both | hold | holdLookup => exact absurd trivial hst
  | _ => rfl

/-- The same for every step that gives no result. -/
theorem Sound.step_evaluated (h : Sound files s) {st : Step} (hst : ¬ st.IsPut) :
    ∃ s₁, Quiet s.state s₁ ∧ Evaluated files (s.asked st) s₁ (s.step st).2.state := by
  cases hstop : st.mayStop with
  | true =>
    cases st with
    | register =>
      rw [step_register]
      exact ⟨_, quiet_registerAll s.state, .nil⟩
    | put g => exact absurd trivial hst
    | _ => cases hstop
  | false =>
    obtain ⟨⟨response, held⟩, s', hact, -⟩ := (h.ends_act hstop).exists_ok
    rw [step_of_ok hact, ← h.files_eq]
    by_cases heval : st.IsEvaluate
    · exact ⟨s.state, .refl, evaluated_of_act heval hact⟩
    · rw [asked_eq_nil heval]
      exact ⟨s', quiet_of_act heval hstop hact, .nil⟩

theorem Sound.mem_of_asked (h : Sound files s) {st : Step} {r : Request}
    (hr : r ∈ s.asked st) : r.file ∈ files := by
  cases st with
  | evaluate q => exact h.mem_of_request? (Option.mem_toList.1 hr)
  | evaluateD g =>
    obtain ⟨x, hx, rfl⟩ := Option.map_eq_some_iff.1 (Option.mem_toList.1 hr)
    exact h.mem_of_given? hx
  | both i =>
    obtain ⟨f, hf, hr⟩ := List.mem_flatMap.1 hr
    have hmem : f ∈ files := h.mem_of_file? (Option.mem_toList.1 hf)
    rcases List.mem_pair.1 hr with rfl | rfl
    · exact hmem
    · exact hmem
  | hold i =>
    obtain ⟨f, hf, rfl⟩ := Option.map_eq_some_iff.1 (Option.mem_toList.1 hr)
    exact h.mem_of_file? hf
  | holdLookup i name =>
    obtain ⟨f, hf, rfl⟩ := Option.map_eq_some_iff.1 (Option.mem_toList.1 hr)
    exact h.mem_of_file? hf
  | _ => cases hr

end Evaluated

/-- A new engine serves nothing. -/
theorem start_served? (files : List SourceFile) (options : Options) (r : Request) :
    (start files options true).state.served? r = none := by
  unfold State.served?
  split
  · rfl
  · split <;> rfl

theorem start_sound (files : List SourceFile) (options : Options) :
    Sound files (start files options true) := by
  refine ⟨rfl, ?_, ?_⟩
  · intro d hd
    cases hd
  · constructor
    case correct =>
      intro r out hr
      rw [start_served?] at hr
      cases hr
    case owned => exact ⟨Tables.owned_empty, Tables.owned_empty⟩
    case known =>
      intro k
      cases k <;> rfl
    case found => simp [values]

/-- After any steps that give no results, no step has ended the session, the definitions it holds
are declarations of its files, and every request about a file is answered with what it should give.
A value is the meaning of its definition or is not there, a check tells whether the file can be
read, declares no name twice and gives every declaration a meaning, and there is code for just the
files that pass, with the meanings in it. -/
theorem answers_eq_meaning (files : List SourceFile) (options : Options) (steps : List Step)
    (hsteps : ∀ st ∈ steps, ¬ st.IsPut) :
    ((start files options true).run steps).length = steps.length ∧
      (∀ d ∈ ((start files options true).after steps).held, Declared files d) ∧
      (∀ r : Request, r.file ∈ files → ∃ out s',
        Compiler.evaluate files r ((start files options true).after steps).state =
          .ok (.ok out) s' ∧ Meets r out) ∧
      ∀ q r, ((start files options true).after steps).request? q = some r → ∃ out,
        (((start files options true).after steps).step (.evaluate q)).1.result =
          .ok (.reply (.answers [⟨r, .ok out⟩])) ∧ Meets r out := by
  have h := (start_sound files options).after hsteps
  refine ⟨(start_sound files options).length_run hsteps, h.held, fun r hr => ?_, fun q r hq => ?_⟩
  · obtain ⟨o, s', heval, hs', out, rfl, hout⟩ := (h.ends_evaluate hr h.sits).exists_ok
    rw [h.files_eq] at heval
    exact ⟨out, s', heval, hout⟩
  · obtain ⟨x, s', hact, ⟨out, rfl, hout⟩, -⟩ := (h.ends_evaluateStep hq).exists_ok
    rw [step_of_ok hact]
    exact ⟨out, rfl, hout⟩

/-- A file with a value that needs a later one, and two values on a cycle. -/
def sample : SourceFile where
  id := ⟨0⟩
  name := "sample"
  content := "let a = b; let b = -(2 + 3); let c = d; let d = c;"

/-- Steps that read the sample twice and ask for the value of a definition of the first reading
where the name is looked up in the second. -/
def rereading : List Step :=
  [.evaluate (.check 0), .hold 0, .clear (.parseModule 0), .clear (.lookup 0 "b"), .hold 0,
    .evaluate (.value 4), .clearCache, .evaluate (.value 2)]

/-- The value of a definition of the first reading, after the sample was read again. -/
theorem answers_eq_meaning_rereading :
    ((start [sample] {} true).run rereading).length = 8 ∧
      ∃ d out, ((start [sample] {} true).after rereading).held? 0 = some d ∧
        (((start [sample] {} true).after rereading).step (.evaluate (.value 0))).1.result =
          .ok (.reply (.answers [⟨.value d, .ok out⟩])) ∧ ∀ v, out = some v ↔ d.Means v := by
  have hsteps : ∀ st ∈ rereading, ¬ st.IsPut := by
    simp [rereading, Step.IsPut]
  have hheld : (((start [sample] {} true).after rereading).held? 0).isSome := by
    decide +kernel
  obtain ⟨d, hd⟩ := Option.isSome_iff_exists.1 hheld
  obtain ⟨hlength, -, -, hanswers⟩ := answers_eq_meaning [sample] {} rereading hsteps
  obtain ⟨out, hout, hmeets⟩ := hanswers (.value 0) (.value d) (by rw [request?, hd]; rfl)
  exact ⟨hlength, d, out, hd, hout, hmeets⟩

end Session

end Demand.Compiler
