import Demand.Proofs.Engine.Stepper
import Demand.Proofs.Script.Table
import Demand.Script.Session

/-!
# Runs of scripted sessions

The states of a session between its steps (`Session.after?`), the calls that its steps make
(`Session.Calls`), and what every run keeps: what is recorded belongs to kinds with a known
computation (`Session.Kept`), and, as long as no result is given and no script changes, what is
served for a grounded request is what plain recursion gives (`Session.Settled`).
-/

namespace Demand.Script

/-! ## Steps -/

namespace Step

/-- The step gives a result. -/
def IsPut : Step → Prop
  | command c => c.IsPut
  | _ => False

/-- The step changes scripts. -/
def IsEdit : Step → Prop
  | edit _ => True
  | _ => False

/-- The requests that the step evaluates one after the other. -/
def asked : Step → List Request
  | command (.evaluate rs) => rs
  | evaluateD r _ => [r]
  | _ => []

theorem edited_of_not_edit {st : Step} (h : ¬ st.IsEdit) (t : Table) : st.edited t = t := by
  cases st with
  | edit _ => exact absurd trivial h
  | command | evaluateD | options | listing => rfl

end Step

/-- The state with no event to tell of. -/
def quiet (s : State family) : State family :=
  { s with world := { s.world with events := [] } }

theorem still_quiet (s : State family) : Still s (quiet s) :=
  ⟨rfl, rfl, rfl, rfl, rfl, rfl, fun _ => rfl, _, .rfl fun _ h => h⟩

namespace Session

/-- The session after a step, if it goes on. -/
def next? (s : Session) (st : Step) : Option Session :=
  stepper.next? s st

/-- The session after steps one after the other, if it goes on. -/
def after? (s : Session) (steps : List Step) : Option Session :=
  steps.foldlM next? s

/-- The calls that a step makes. -/
def Calls (s : Session) (st : Step) : Call family → Prop :=
  s.table.rules.CallsIn s.table.depth st.asked s.state

/-- The calls that steps one after the other make. -/
def AllCalls (s : Session) (steps : List Step) (c : Call family) : Prop :=
  ∃ before st later s', steps = before ++ st :: later ∧ s.after? before = some s' ∧ s'.Calls st c

variable {s s' : Session} {st : Step}

theorem step_eq_of_ok {response : Response} {s₁ : State family}
    (h : st.act s.table s.state = .ok response s₁) :
    s.step st = (⟨.ok response, s₁.world.events, s₁.diagnostics.length⟩,
      ⟨st.edited s.table, quiet s₁⟩) := by
  unfold step
  rw [show (st.act s.table).run s.state = .ok response s₁ from h]
  rfl

theorem step_eq_of_error {stop : Stop family} {s₁ : State family}
    (h : st.act s.table s.state = .error stop s₁) :
    s.step st = (⟨.error stop, s₁.world.events, s₁.diagnostics.length⟩,
      ⟨st.edited s.table, quiet s₁⟩) := by
  unfold step
  rw [show (st.act s.table).run s.state = .error stop s₁ from h]
  rfl

/-- A step that is no evaluation always goes on, from where it ends or stops. -/
theorem next?_of_not_evaluation (h : st.isEvaluation = false) :
    s.next? st = some ⟨st.edited s.table, quiet ((st.act s.table).final s.state)⟩ := by
  have hnext : s.next? st = some (s.step st).2 := if_pos (by simp [stepper, h])
  rw [hnext]
  cases ha : st.act s.table s.state with
  | ok response s₁ => rw [step_eq_of_ok ha, Eval.final_of_ok ha]
  | error stop s₁ => rw [step_eq_of_error ha, Eval.final, ha]

/-- A step that ends goes on from where it ends. -/
theorem next?_of_ok {response : Response} {s₁ : State family}
    (h : st.act s.table s.state = .ok response s₁) :
    s.next? st = some ⟨st.edited s.table, quiet s₁⟩ := by
  have hok : (s.step st).1.result.isOk := by
    rw [step_eq_of_ok h]
    rfl
  have hnext : s.next? st = some (s.step st).2 := if_pos (by simp [stepper, hok])
  rw [hnext, step_eq_of_ok h]

/-- An evaluation goes on if it ends. -/
theorem next?_of_evaluation (h : st.isEvaluation = true) (hs : s.next? st = some s') :
    ∃ response s₁, st.act s.table s.state = .ok response s₁ ∧
      s' = ⟨st.edited s.table, quiet s₁⟩ := by
  cases ha : st.act s.table s.state with
  | ok response s₁ =>
    rw [next?_of_ok ha] at hs
    exact ⟨response, s₁, rfl, (Option.some.inj hs).symm⟩
  | error stop s₁ =>
    simp [next?, Stepper.next?, stepper, step_eq_of_error ha, h, Except.isOk, Except.toBool] at hs

/-- What an evaluation that goes on does. -/
theorem evaluateAll_of_next? (h : st.isEvaluation = true) (hs : s.next? st = some s') :
    ∃ as s₁, s.table.rules.evaluateAll s.table.depth st.asked s.state = .ok as s₁ ∧
      s' = ⟨s.table, quiet s₁⟩ := by
  obtain ⟨response, s₁, ha, rfl⟩ := next?_of_evaluation h hs
  cases st with
  | command c =>
    cases c with
    | evaluate rs =>
      obtain ⟨reply, s₂, hrun, ha⟩ := Eval.bind_eq_ok.1 ha
      cases ha
      obtain ⟨as, s₃, hall, hrun⟩ := Eval.bind_eq_ok.1 hrun
      cases hrun
      exact ⟨as, s₁, hall, rfl⟩
    | _ => cases h
  | evaluateD r d =>
    obtain ⟨o, s₂, ho, ha⟩ := Eval.bind_eq_ok.1 ha
    cases ha
    exact ⟨_, s₁, Rules.evaluateAll_cons.2 ⟨o, s₁, [], ho, rfl, rfl⟩, rfl⟩
  | _ => cases h

/-- What a step that does not end the session does. -/
theorem next?_cases (h : s.next? st = some s') :
    (st.isEvaluation = true ∧ ∃ as s₁,
      s.table.rules.evaluateAll s.table.depth st.asked s.state = .ok as s₁ ∧
        s' = ⟨s.table, quiet s₁⟩) ∨
    (st.asked = [] ∧ ∃ c s₁, st = .command c ∧ c.Effect s.state s₁ ∧ s' = ⟨s.table, quiet s₁⟩) ∨
    (st.asked = [] ∧ (∀ c, st ≠ .command c) ∧ s' = ⟨st.edited s.table, quiet s.state⟩) := by
  cases st with
  | command c =>
    by_cases hc : c.IsEvaluate
    · cases c with
      | evaluate rs => exact .inl ⟨rfl, evaluateAll_of_next? rfl h⟩
      | _ => exact hc.elim
    · have hev : (Step.command c).isEvaluation = false ∧ (Step.command c).asked = [] := by
        cases c with
        | evaluate rs => exact absurd trivial hc
        | _ => exact ⟨rfl, rfl⟩
      rw [next?_of_not_evaluation hev.1] at h
      have heffect := Command.effect s.table.lawful hc s.table.depth s.state
      refine .inr (.inl ⟨hev.2, c, _, rfl, heffect, ?_⟩)
      rw [Step.act, Eval.final_map] at h
      exact (Option.some.inj h).symm
  | evaluateD r d => exact .inl ⟨rfl, evaluateAll_of_next? rfl h⟩
  | edit changes =>
    rw [next?_of_not_evaluation rfl] at h
    exact .inr (.inr ⟨rfl, by simp, (Option.some.inj h).symm⟩)
  | options =>
    rw [next?_of_not_evaluation rfl] at h
    exact .inr (.inr ⟨rfl, by simp, (Option.some.inj h).symm⟩)
  | listing =>
    rw [next?_of_not_evaluation rfl] at h
    exact .inr (.inr ⟨rfl, by simp, (Option.some.inj h).symm⟩)

/-- A request that is computed asks first for what stands first in its script, in a scope that is
new if it opens one. -/
theorem exists_first_call {r q : Request} {d : Int64} {e : Entry} {rest : List Action}
    (hfind : s.table.find? r = some e) (he : e.actions = .evaluate q d :: rest)
    (hopens : family.opensScope r) (howned : s.state.Owned)
    (hknown : s.state.registry.knows r.kind) (hnone : s.state.served? r = none) :
    ∃ c, s.Calls (.command (.evaluate [r])) c ∧ c.request = q ∧
      c.state.recorder.scopes = [] :: s.state.recorder.scopes := by
  have hlookup := State.lookup_eq howned hknown
  rw [hnone] at hlookup
  obtain ⟨_, s₁, hbegin, hin⟩ := (@Rules.ends_begin family _ _ [] r (.inr hknown)).exists_ok
  refine ⟨⟨_, [r], q, { s₁ with world := s₁.world.log s!"run {r.text}" }⟩,
    .inl (.single (.intro (by simp) hlookup hbegin ?_)), rfl, ?_⟩
  · simp only [Table.rules, Table.total, hfind, he]
    exact .inl ⟨rfl, rfl⟩
  · show s₁.recorder.scopes = _
    rw [hin.scopes, if_pos hopens]

/-! ## Runs -/

theorem after?_append {steps later : List Step} :
    s.after? (steps ++ later) = some s' ↔
      ∃ s₁, s.after? steps = some s₁ ∧ s₁.after? later = some s' := by
  unfold after?
  rw [List.foldlM_append]
  simp [Option.bind_eq_some_iff]

theorem after?_snoc {steps : List Step} :
    s.after? (steps ++ [st]) = some s' ↔
      ∃ s₁, s.after? steps = some s₁ ∧ s₁.next? st = some s' := by
  rw [after?_append]
  simp [after?]

/-- What each of the steps keeps is kept by all of them. -/
theorem after?_invariant {I : Session → Prop} {steps : List Step}
    (hstep : ∀ st ∈ steps, ∀ s s', s.next? st = some s' → I s → I s')
    (h : s.after? steps = some s') (hs : I s) : I s' := by
  induction steps using List.reverseRecOn generalizing s' with
  | nil =>
    cases h
    exact hs
  | append_singleton steps st ih =>
    obtain ⟨s₁, hs₁, hnext⟩ := after?_snoc.1 h
    exact hstep st (by simp) s₁ s' hnext (ih (fun st hst => hstep st (by simp [hst])) hs₁)

theorem allCalls_snoc {steps : List Step} {c : Call family} :
    s.AllCalls (steps ++ [st]) c ↔
      s.AllCalls steps c ∨ ∃ s₁, s.after? steps = some s₁ ∧ s₁.Calls st c := by
  constructor
  · rintro ⟨before, st', later, s₁, hsteps, hs₁, hc⟩
    rcases List.eq_nil_or_concat later with rfl | ⟨later, st'', rfl⟩
    · obtain ⟨rfl, hst⟩ := List.append_inj' hsteps rfl
      cases hst
      exact .inr ⟨s₁, hs₁, hc⟩
    · rw [List.concat_eq_append, ← List.cons_append, ← List.append_assoc] at hsteps
      obtain ⟨rfl, -⟩ := List.append_inj' hsteps rfl
      exact .inl ⟨before, st', later, s₁, rfl, hs₁, hc⟩
  · rintro (⟨before, st', later, s₁, rfl, hs₁, hc⟩ | ⟨s₁, hs₁, hc⟩)
    · exact ⟨before, st', later ++ [st], s₁, by simp, hs₁, hc⟩
    · exact ⟨steps, st, [], s₁, rfl, hs₁, hc⟩

theorem allCalls_snoc_of_after? {steps : List Step} {s₁ : Session}
    (h : s.after? steps = some s₁) {c : Call family} :
    s.AllCalls (steps ++ [st]) c ↔ s.AllCalls steps c ∨ s₁.Calls st c := by
  rw [allCalls_snoc]
  refine or_congr_right ⟨?_, fun hc => ⟨s₁, h, hc⟩⟩
  rintro ⟨s₂, hs₂, hc⟩
  rw [h] at hs₂
  cases hs₂
  exact hc

theorem not_allCalls_nil (c : Call family) : ¬ s.AllCalls [] c := by
  rintro ⟨before, st, later, s₁, hnil, -⟩
  simp at hnil

theorem not_calls_of_asked (h : st.asked = []) (c : Call family) : ¬ s.Calls st c := by
  rw [Calls, h]
  exact id

/-! ## What every run keeps -/

theorem bounded_start (table : Table) (r : Request) :
    Bounded (F := family) table.Asks table.requests.length table.depth [] r :=
  ⟨.start r, List.nodup_nil, Nat.le_refl _⟩

/-- What is recorded belongs to kinds with a known computation. -/
def Kept (s : State family) : Prop :=
  s.recorder.recorded.Owned s.registry.knows

theorem next?_kept (h : s.next? st = some s') (hs : Kept s.state) : Kept s'.state := by
  rcases next?_cases h with ⟨-, as, s₁, hall, rfl⟩ | ⟨-, c, s₁, -, he, rfl⟩ | ⟨-, -, rfl⟩
  · show Kept s₁
    refine Rules.evaluateAll_invariant (fun r _ o _ ho hs => ?_) hall hs
    exact (Rules.answers_of_evaluate s.table.lawful ho).recorded_owned hs
  · exact he.recorded_owned hs
  · exact hs

theorem after?_kept {steps : List Step} (h : s.after? steps = some s') (hs : Kept s.state) :
    Kept s'.state :=
  after?_invariant (I := fun s => Kept s.state) (fun _ _ _ _ => next?_kept) h hs

theorem start_of_register (table : Table) (options : Options) : start table options true =
    ⟨table, (Eval.register (F := family) .testing registeredKinds).final
      { options := options, world := {} }⟩ := by
  unfold start Eval.final
  dsimp only
  rw [if_pos rfl, EStateM.run]
  generalize Eval.register (F := family) _ _ _ = x
  cases x <;> rfl

/-- A new engine is empty but for the computations it knows. -/
theorem start_eq (table : Table) (options : Options) (register : Bool) :
    ∃ registry log, start table options register =
      ⟨table, { options := options, registry := registry, log := log, world := {} }⟩ := by
  cases register with
  | false => exact ⟨_, _, rfl⟩
  | true =>
    obtain ⟨registry, log, hfinal⟩ := Command.final_register (F := family) .testing registeredKinds
      { options := options, world := {} }
    exact ⟨registry, log, by rw [start_of_register, hfinal]⟩

/-- A new engine is one that has done nothing but learn computations. -/
theorem start_effect (table : Table) (options : Options) (register : Bool) :
    (start table options register).table = table ∧
      ∃ c : Command family, ¬ c.IsPut ∧
        c.Effect { options := options, world := {} } (start table options register).state := by
  cases register with
  | false => exact ⟨rfl, .statistics, id, .refl id _⟩
  | true =>
    rw [start_of_register]
    exact ⟨rfl, .register .testing registeredKinds, id, Command.effect_register (F := family)
      (.register .testing registeredKinds) { options := options, world := {} } id .testing
      registeredKinds⟩

/-- Nothing is served at the start. -/
theorem start_served? (table : Table) (options : Options) (register : Bool) (r : Request) :
    (start table options register).state.served? r = none := by
  obtain ⟨registry, log, hstart⟩ := start_eq table options register
  rw [hstart]
  unfold State.served?
  split
  · rfl
  · split
    · show (if r.isHooked then none else none) = none
      split <;> rfl
    · rfl

theorem start_kept (table : Table) (options : Options) (register : Bool) :
    Kept (start table options register).state := by
  obtain ⟨-, c, -, he⟩ := start_effect table options register
  exact he.recorded_owned Tables.owned_empty

/-- The tables belong to known kinds, and what is served for a grounded request is what plain
recursion gives. If `exact`, so is what is recorded for it. -/
structure Settled (table : Table) (exact : Prop) (s : Session) : Prop where
  table_eq : s.table = table
  owned : s.state.Owned
  memoized : Memoized table.rules table.Asks exact s.state

section Settled

variable {table : Table} {exact : Prop}

theorem Settled.frame (h : Settled table exact s) {s₁ : State family}
    (hf : Frame [] s.state s₁) (hm : Memoized table.rules table.Asks exact s₁) :
    Settled table exact ⟨s.table, s₁⟩ :=
  ⟨h.table_eq, hf.toPersists.owned h.owned, hm⟩

theorem Settled.quiet (h : Settled table exact s) : Settled table exact ⟨s.table, quiet s.state⟩ :=
  h.frame (still_quiet s.state).frame
    (h.memoized.of_eq (still_quiet s.state).served? (still_quiet s.state).recorded)

/-- A step keeps the session settled, if it gives no result and changes no script, and drops
everything that is recorded only while nothing is stored outside the engine. -/
theorem Settled.next? (hplain : table.IsPlain) (hput : ¬ st.IsPut) (hedit : ¬ st.IsEdit)
    (hclear : exact → st = .command .clearCache →
      ∀ q, family.inStore q → s.state.served? q = none)
    (hs : Settled table exact s) (h : s.next? st = some s') : Settled table exact s' := by
  obtain rfl := hs.table_eq
  rcases next?_cases h with ⟨-, as, s₁, hall, rfl⟩ | ⟨-, c, s₁, rfl, he, rfl⟩ | ⟨-, -, rfl⟩
  · have hs₁ : Settled s.table exact ⟨s.table, s₁⟩ := by
      refine Rules.evaluateAll_invariant (I := fun s₁ => Settled s.table exact ⟨s.table, s₁⟩)
        ?_ hall hs
      intro r s₀ o s₁ ho hs₀
      have hafter := ((s.table.memo hplain).ends s.table.lawful _ [] r s₀
        ⟨hs₀.memoized, .start r⟩).of_ok ho
      exact hs₀.frame hafter.1.toFrame hafter.2.1
    exact hs₁.quiet
  · have hm : Memoized s.table.rules s.table.Asks exact s₁ := by
      refine hs.memoized.effect he hput fun hexact hc => hclear hexact ?_
      cases c with
      | clearCache => rfl
      | _ => exact hc.elim
    have hs₁ : Settled s.table exact ⟨s.table, s₁⟩ :=
      ⟨rfl, ⟨he.cache_owned hput hs.owned.1, he.recorded_owned hs.owned.2⟩, hm⟩
    exact hs₁.quiet
  · rw [Step.edited_of_not_edit hedit]
    exact hs.quiet

theorem start_settled (table : Table) (options : Options) (register : Bool) :
    Settled table exact (start table options register) := by
  obtain ⟨htable, c, hput, he⟩ := start_effect table options register
  refine ⟨htable, ⟨he.cache_owned hput Tables.owned_empty,
    he.recorded_owned Tables.owned_empty⟩, fun r out hg hserved => ?_⟩
  rw [start_served?] at hserved
  cases hserved

/-- A run keeps a session settled, also in what it records if nothing is stored outside the engine
when the cache is cleared. -/
theorem after?_settled (hplain : table.IsPlain) {steps : List Step}
    (hsteps : ∀ st ∈ steps, ¬ st.IsPut ∧ ¬ st.IsEdit)
    (hclear : exact → ∀ before later s₁, steps = before ++ .command .clearCache :: later →
      s.after? before = some s₁ → ∀ q, family.inStore q → s₁.state.served? q = none)
    (hs : Settled table exact s) (h : s.after? steps = some s') : Settled table exact s' := by
  induction steps using List.reverseRecOn generalizing s' with
  | nil =>
    cases h
    exact hs
  | append_singleton steps st ih =>
    obtain ⟨s₁, hs₁, hnext⟩ := after?_snoc.1 h
    have hst := hsteps st (by simp)
    have hsettled : Settled table exact s₁ := by
      refine ih (fun st h => hsteps st (by simp [h])) ?_ hs₁
      intro hexact before later s₂ heq
      exact hclear hexact before (later ++ [st]) s₂ (by simp [heq])
    refine hsettled.next? hplain hst.1 hst.2 ?_ hnext
    rintro hexact rfl
    exact hclear hexact steps [] s₁ rfl hs₁

end Settled

end Session

/-! ## A sample -/

/-- A result that is stored outside the engine, a source that asks for it, and a request that asks
for itself. -/
def sample : Table :=
  [((.keyed .external, "e"), { actions := [.add 5, .record (.topLevel "x")] }),
   ((.filed .source, "a"), { actions := [.evaluate (.keyed .external "e") 0, .add 1] }),
   ((.keyed .cached, "loop"), { actions := [.attempt (.keyed .cached "loop")] })]

/-- Evaluates the source for a file. -/
def evaluateSource (n : Nat) : Step :=
  .command (.evaluate [.filed .source ⟨n⟩ "a"])

/-- Steps on the sample that find the cycle, store the result and drop that of the source. -/
def sampleSteps : List Step :=
  [.command .clearCache, .command (.evaluate [.keyed .cached "loop"]), evaluateSource 1,
    .command (.clear (.filed .source ⟨1⟩ "a"))]

theorem sampleSteps_evaluate : ∀ st ∈ sampleSteps, ¬ st.IsPut ∧ ¬ st.IsEdit := by
  simp [sampleSteps, Step.IsPut, Step.IsEdit, Command.IsPut, evaluateSource]

theorem isPlain_sample : sample.IsPlain := by
  simp [Table.IsPlain, sample, Action.IsPlain]

/-- But for the request that asks for itself, only the source asks for anything. -/
theorem asks_sample {r q : Request} (hr : r.kind ≠ .keyed .cached) (h : sample.Asks r q) :
    r.kind = .filed .source ∧ q = .keyed .external "e" := by
  unfold Table.Asks Table.mentions at h
  cases hf : sample.find? r with
  | none => simp [hf] at h
  | some e =>
    have hmem := Table.mem_of_find? hf
    rw [hf] at h
    simp only [sample, List.mem_cons, Prod.mk.injEq, List.not_mem_nil, or_false] at hmem
    rcases hmem with ⟨⟨hk, -⟩, rfl⟩ | ⟨⟨hk, -⟩, rfl⟩ | ⟨⟨hk, -⟩, rfl⟩
    · simp [Action.requestsOf, Action.requests] at h
    · exact ⟨hk, by simpa [Action.requestsOf, Action.requests] using h⟩
    · exact absurd hk hr

theorem grounded_sample {r : Request} (hr : r.kind ≠ .keyed .cached) :
    (∀ q, Relation.ReflTransGen sample.Asks r q → q = r ∨ q = .keyed .external "e") ∧
      Grounded sample.Asks r := by
  refine grounded_of_rank (fun q => if q.kind = .filed .source then 1 else 0) ?_ (.inl rfl)
  rintro p hp q hq
  have hkind : p.kind ≠ .keyed .cached := by
    rcases hp with rfl | rfl
    · exact hr
    · decide
  obtain ⟨hk, rfl⟩ := asks_sample hkind hq
  refine ⟨.inr rfl, ?_⟩
  rw [if_pos hk]
  decide

end Demand.Script
