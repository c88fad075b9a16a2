import Demand.Proofs.Engine.Provenance
import Demand.Proofs.Script.Computations
import Demand.Proofs.Script.Moments

/-!
# Records and the computations they come from

Between the steps of a session, what is recorded for a request whose result the engine keeps was
recorded by the computation that gave its result (`records_are_current`). A result that was given by
hand has no record, so that asking for it writes nothing but what it writes as a sink.
-/

namespace Demand.Script

namespace Session

variable {s₀ s s' : Session} {st : Step} {r : Request}

/-- What a step that does not end the session does to results and records. -/
theorem next?_touches (h : s.next? st = some s') :
    (st.isEvaluation = true ∧ ∃ as s₁,
      s.table.rules.evaluateAll s.table.depth st.asked s.state = .ok as s₁ ∧
        s' = ⟨s.table, quiet s₁⟩) ∨
    (∃ c, st = .command c ∧ ∀ q, Command.Touches q c s.state s'.state) ∨
    (∀ q, State.Same q s.state s'.state) := by
  cases hev : st.isEvaluation with
  | true => exact .inl ⟨rfl, evaluateAll_of_next? hev h⟩
  | false =>
    rw [next?_of_not_evaluation hev] at h
    obtain rfl := Option.some.inj h
    cases st with
    | command c =>
      have hc : ¬ c.IsEvaluate := by
        intro hc
        cases c with
        | evaluate rs => cases hev
        | _ => exact hc
      refine .inr (.inl ⟨c, rfl, fun q => ?_⟩)
      rw [Step.act, Eval.final_map]
      exact (Command.touches hc q s.table.depth s.state).same_right ((still_quiet _).same q)
    | evaluateD r d => cases hev
    | edit | options | listing => exact .inr (.inr fun q => ⟨rfl, rfl⟩)

/-! ## Records are there with results -/

theorem next?_fresh (h : s.next? st = some s') (hs : s.state.Fresh) : s'.state.Fresh := by
  rcases next?_touches h with ⟨-, as, s₁, hall, rfl⟩ | ⟨c, -, ht⟩ | hsame
  · have hs₁ : s₁.Fresh := by
      refine Rules.evaluateAll_invariant (I := State.Fresh) (fun r s₀ o s₁ ho hs₀ => ?_) hall hs
      exact (((freshly s.table.lawful).ends s.table.lawful _ [] r s₀ hs₀).of_ok ho).2
    exact hs₁.of_same (still_quiet s₁).same
  · exact hs.touches ht
  · exact hs.of_same hsame

theorem after?_fresh {steps : List Step} (h : s.after? steps = some s') (hs : s.state.Fresh) :
    s'.state.Fresh :=
  after?_invariant (I := fun s => s.state.Fresh) (fun _ _ _ _ => next?_fresh) h hs

theorem start_fresh (table : Table) (options : Options) (register : Bool) :
    (start table options register).state.Fresh := by
  obtain ⟨registry, log, hstart⟩ := start_eq table options register
  rw [hstart]
  exact ⟨fun _ _ _ => rfl, fun _ h => by cases h⟩

/-- A request that is computed has no record before. -/
theorem recorded_none_of_calls (hs : s.state.Fresh) {c : Call family} (hc : s.Calls st c)
    (hr : family.inEngine c.request) (hcomputes : c.computes = true) :
    c.state.recorded? c.request = none := by
  have hfresh : c.state.Fresh := by
    refine Rules.CallsIn.of_invariant (I := State.Fresh) (P := fun c => c.state.Fresh)
      (fun r s₀ o s₁ ho hs₀ => ?_) (fun q s₀ c hs₀ hw => ?_) hc hs
    · exact (((freshly s.table.lawful).ends s.table.lawful _ [] r s₀ hs₀).of_ok ho).2
    · exact (freshly s.table.lawful).within s.table.lawful hw hs₀
  refine hfresh.recorded c.request hr ?_
  rw [Call.computes, Bool.and_eq_true, Option.isSome_iff_exists] at hcomputes
  obtain ⟨-, s₁, hbegun⟩ := hcomputes
  have hnone := State.served?_of_lookup (Rules.begun?_eq_some_iff.1 hbegun).2.1
  rwa [State.served?, if_pos hr] at hnone

/-! ## The computation behind a record -/

/-- In steps from `s₀`, a call of the step after the first ones computes its request, gives the
result and records the references, where nothing was recorded before; and at every end of a step
since then both are still there. -/
structure Computed (s₀ : Session) (before : List Step) (st : Step) (later : List Step)
    (c : Call family) (out : Int64) (refs : Scope) : Prop where
  call : ∃ s₁ s', s₀.after? before = some s₁ ∧ s₁.Calls st c ∧ c.computes = true ∧
    c.state.recorded? c.request = none ∧ s₁.table.rules.answer c = .ok (.ok out) s' ∧
    s'.recorded? c.request = some refs
  since : ∀ mid rest s, later = mid ++ rest → s₀.after? (before ++ st :: mid) = some s →
    s.state.result? c.request = some out ∧ s.state.recorded? c.request = some refs

/-- A step that leaves the result and the record leaves where they come from. -/
theorem Computed.extend {before later : List Step} {c : Call family} {out : Int64} {refs : Scope}
    (h : Computed s₀ before st later c out refs) {st' : Step}
    (hs : s₀.after? (before ++ st :: later) = some s) (hnext : s.next? st' = some s')
    (hsame : State.Same c.request s.state s'.state) :
    Computed s₀ before st (later ++ [st']) c out refs := by
  refine ⟨h.call, fun mid rest s₂ hsplit hs₂ => ?_⟩
  rcases List.eq_nil_or_concat rest with rfl | ⟨rest, st'', rfl⟩
  · -- the boundary after the new step
    rw [List.append_nil] at hsplit
    subst hsplit
    rw [← List.cons_append, ← List.append_assoc] at hs₂
    obtain ⟨s₁, hs₁, hnext'⟩ := after?_snoc.1 hs₂
    rw [hs] at hs₁
    cases hs₁
    rw [hnext] at hnext'
    cases hnext'
    obtain ⟨hresult, hrecorded⟩ := h.since later [] s (by simp) hs
    exact ⟨hsame.result.trans hresult, hsame.recorded.trans hrecorded⟩
  · rw [List.concat_eq_append, ← List.append_assoc] at hsplit
    obtain ⟨rfl, -⟩ := List.append_inj' hsplit rfl
    exact h.since mid rest s₂ rfl hs₂

/-- Every record comes from a computation in the steps. -/
theorem exists_computed (hr : family.inEngine r) (hs₀ : s₀.state.Fresh)
    (hnone : s₀.state.recorded? r = none) {steps : List Step} (h : s₀.after? steps = some s)
    {refs : Scope} (hrefs : s.state.recorded? r = some refs) :
    ∃ before st later c out, steps = before ++ st :: later ∧ c.request = r ∧
      Computed s₀ before st later c out refs := by
  induction steps using List.reverseRecOn generalizing s with
  | nil =>
    cases h
    rw [hnone] at hrefs
    cases hrefs
  | append_singleton steps st ih =>
    obtain ⟨s₁, hs₁, hnext⟩ := after?_snoc.1 h
    have hfresh := after?_fresh hs₁ hs₀
    have hextend : State.Same r s₁.state s.state → ∃ before st' later c out,
        steps ++ [st] = before ++ st' :: later ∧ c.request = r ∧
          Computed s₀ before st' later c out refs := by
      intro hsame
      obtain ⟨before, st', later, c, out, rfl, rfl, hc⟩ := ih hs₁ (hsame.recorded ▸ hrefs)
      exact ⟨before, st', later ++ [st], c, out, by simp, rfl, hc.extend hs₁ hnext hsame⟩
    rcases next?_touches hnext with ⟨-, as, s₂, hall, rfl⟩ | ⟨c, -, ht⟩ | hsame
    · have hquiet : State.Same r s₂ (quiet s₂) := (still_quiet s₂).same r
      rcases Rules.provenance_evaluateAll s₁.table.lawful hr hall with hsame | ⟨c, hc, rfl, hprod⟩
      · exact hextend (hsame.trans hquiet)
      · obtain ⟨hcomputes, out, s', ho, hresult, hrecorded⟩ := hprod.same hquiet
        refine ⟨steps, st, [], c, out, rfl, rfl, ⟨s₁, s', hs₁, hc, hcomputes,
          recorded_none_of_calls hfresh hc hr hcomputes, ho, hrecorded.symm.trans hrefs⟩, ?_⟩
        intro mid rest s₃ hmid hs₃
        obtain ⟨rfl, -⟩ := List.append_eq_nil_iff.1 hmid.symm
        rw [h] at hs₃
        cases hs₃
        exact ⟨hresult, hrefs⟩
    · cases ht r with
      | same hsame => exact hextend hsame
      | dropped _ _ hrecorded =>
        rw [hrecorded] at hrefs
        cases hrefs
      | given out _ hresult _ hrecorded =>
        -- there was no result before, and so no record
        rw [hrecorded, hfresh.recorded r hr hresult] at hrefs
        cases hrefs
    · exact hextend (hsame r)

/-! ## Results that were given -/

/-- The request has the result and no record. -/
structure Unrecorded (r : Request) (out : Int64) (s : State family) : Prop where
  result : s.result? r = some out
  recorded : s.recorded? r = none

variable {out : Int64}

theorem Unrecorded.same {s s' : State family} (h : Unrecorded r out s) (hs : State.Same r s s') :
    Unrecorded r out s' :=
  ⟨hs.result.trans h.result, hs.recorded.trans h.recorded⟩

theorem Unrecorded.persists (hr : family.inEngine r) {stack : List Request} {s s' : State family}
    (h : Unrecorded r out s) (hp : Persists (F := family) stack s s') : Unrecorded r out s' :=
  h.same (.of_persists hr hp h.result)

theorem Unrecorded.evaluate (hr : family.inEngine r) {table : Table} {n : Nat} {q : Request}
    {o : Outcome family q} {s s' : State family} (h : Unrecorded r out s)
    (ho : table.rules.evaluate n [] q s = .ok o s') : Unrecorded r out s' :=
  h.persists hr (Rules.answers_of_evaluate table.lawful ho).toPersists

theorem Unrecorded.next? (hr : family.inEngine r) (h : Unrecorded r out s.state)
    (hst : ¬ st.Drops r) (hnext : s.next? st = some s') : Unrecorded r out s'.state := by
  rcases next?_touches hnext with ⟨-, as, s₁, hall, rfl⟩ | ⟨c, rfl, ht⟩ | hsame
  · have hs₁ : Unrecorded r out s₁ :=
      Rules.evaluateAll_invariant (fun _ _ _ _ ho h => h.evaluate hr ho) hall h
    exact hs₁.same ((still_quiet s₁).same r)
  · cases ht r with
    | same hsame => exact h.same hsame
    | dropped hdrops _ _ => exact absurd hdrops hst
    | given _ _ hnone _ _ =>
      rw [h.result] at hnone
      cases hnone
  · exact h.same (hsame r)

theorem Unrecorded.after? (hr : family.inEngine r) {steps : List Step}
    (h : Unrecorded r out s.state) (hsteps : ∀ st ∈ steps, ¬ st.Drops r)
    (hs : s.after? steps = some s') : Unrecorded r out s'.state :=
  after?_invariant (I := fun s => Unrecorded r out s.state)
    (fun st hst _ _ hnext h => h.next? hr (hsteps st hst) hnext) hs h

/-- A result that a step gives is there afterwards without a record. -/
theorem unrecorded_of_put (hr : family.inEngine r) (hs : s.state.Fresh) {response : Response}
    (hok : (s.step (.command (.put r out))).1.result = .ok response)
    (hnext : s.next? (.command (.put r out)) = some s') : Unrecorded r out s'.state := by
  cases ha : (Step.command (.put r out)).act s.table s.state with
  | error stop s₁ =>
    rw [step_eq_of_error ha] at hok
    cases hok
  | ok x s₁ =>
    rw [next?_of_not_evaluation rfl, Eval.final_of_ok ha] at hnext
    obtain rfl := Option.some.inj hnext
    obtain ⟨reply, s₂, hrun, hreply⟩ := Eval.bind_eq_ok.1 ha
    cases hreply
    obtain ⟨_, s₃, hput, hdone⟩ := Eval.bind_eq_ok.1 hrun
    cases hdone
    obtain ⟨log, cache, hi, rfl⟩ := Command.insert_of_putResult hr hput
    exact ⟨(Tables.insert_values hi).1, hs.recorded r hr (Tables.value?_of_insert hi)⟩

/-- At every call the result is still there without a record, so that the request is not active. -/
theorem Unrecorded.calls (hr : family.inEngine r) (h : Unrecorded r out s.state)
    (hkept : Kept s.state) {c : Call family} (hc : s.Calls st c) :
    Unrecorded r out c.state ∧ r ∉ c.stack ∧ Kept c.state ∧
      c.state.registry = s.state.registry := by
  refine Rules.CallsIn.of_invariant
    (I := fun s₁ => Unrecorded r out s₁ ∧ Kept s₁ ∧ s₁.registry = s.state.registry)
    (P := fun c => Unrecorded r out c.state ∧ r ∉ c.stack ∧ Kept c.state ∧
      c.state.registry = s.state.registry) ?_ ?_ hc ⟨h, hkept, rfl⟩
  · rintro q s₁ o s₂ ho ⟨h, hkept, hreg⟩
    have hanswers := Rules.answers_of_evaluate s.table.lawful ho
    exact ⟨h.evaluate hr ho, hanswers.recorded_owned hkept, hanswers.registry.trans hreg⟩
  · rintro q s₁ c ⟨h, hkept, hreg⟩ hw
    have hstands := hw.stands s.table.lawful
    have hc := h.persists hr hstands.persists
    refine ⟨hc, fun hmem => ?_, hstands.persists.recorded_owned hkept,
      hstands.persists.registry.trans hreg⟩
    have hnone := hstands.unserved r hmem
    rw [State.served?, if_pos hr, hc.result] at hnone
    cases hnone

/-- A call of a result without a record writes nothing but what the result writes as a sink. -/
theorem Unrecorded.serves (hr : family.inEngine r) (h : Unrecorded r out s.state)
    (hkept : Kept s.state) {c : Call family} (hc : s.Calls st c) (hreq : c.request = r) :
    (s.state.registry.knows r.kind → ∃ s', s.table.rules.answer c = .ok (.ok out) s') ∧
    ∀ o s', s.table.rules.answer c = .ok o s' → o = .ok out ∧
      Grown (s.table.rules.Sinks c.request out) c.state.recorder.scopes s'.recorder.scopes ∧
      ∀ f ref, ref ∈ s'.recorder.filed f ↔ ref ∈ c.state.recorder.filed f := by
  subst hreq
  obtain ⟨hun, hstack, hkept, hreg⟩ := h.calls hr hkept hc
  have hpos := (bounded_of_calls hc).pos fun _ _ => Table.Asks.mem_requests
  obtain ⟨fuel, stack, q, s₁⟩ := c
  obtain ⟨n, rfl⟩ : ∃ n, fuel = n + 1 := ⟨fuel - 1, by dsimp only at hpos; omega⟩
  have hlookup : s₁.lookup q = .ok (some out) := State.lookup_of_result? hr hun.result
  refine ⟨fun hknown => ?_, fun o s' ho => ?_⟩
  · have hget := Tables.get?_eq hkept Registry.knows_injective (by rw [hreg]; exact hknown)
    obtain ⟨s', ho, -⟩ := @Rules.exists_serves _ s.table.rules s₁ n _ _ _ hstack hlookup ⟨_, hget⟩
    exact ⟨s', ho⟩
  · rcases Rules.evaluate_cases ho with ⟨hmem, -⟩ | ⟨-, out', hl, hs, rfl⟩ | ⟨-, hl, -⟩
    · exact absurd hmem hstack
    · rw [hlookup] at hl
      cases hl
      have hnot : ∀ ref, ¬ s₁.Records q ref := by
        rintro ref ⟨scope, hscope, -⟩
        rw [hun.recorded] at hscope
        cases hscope
      exact ⟨rfl, hs.scopes.congr fun ref => by simp [hnot ref],
        fun f ref => by simp [hs.filed, hnot ref]⟩
    · rw [hlookup] at hl
      cases hl

end Session

/-- What is recorded for a request whose result the engine keeps, between the steps of a run. It is
not empty, and was recorded by the computation that gave the result that is there. If a result was
given by hand and not dropped since, it is there without a record; asking for it gives it, if
computations of its kind are known, and then writes nothing but what it writes as a sink. -/
theorem records_are_current (table : Table) (options : Options) (register : Bool)
    (steps : List Step) (s : Session)
    (hs : (Session.start table options register).after? steps = some s) (r : Request)
    (hr : family.inEngine r = true) :
    (∀ refs, s.state.recorded? r = some refs → refs ≠ [] ∧
      ∃ before st later c out, steps = before ++ st :: later ∧ c.request = r ∧
        s.state.result? r = some out ∧
        (Session.start table options register).Computed before st later c out refs) ∧
    ∀ before later out s₁ response, steps = before ++ .command (.put r out) :: later →
      (Session.start table options register).after? before = some s₁ →
      (s₁.step (.command (.put r out))).1.result = .ok response →
      (∀ st ∈ later, ¬ st.Drops r) →
      s.state.result? r = some out ∧ s.state.recorded? r = none ∧
      ∀ st c, s.Calls st c → c.request = r →
        (s.state.registry.knows r.kind → ∃ s', s.table.rules.answer c = .ok (.ok out) s') ∧
        ∀ o s', s.table.rules.answer c = .ok o s' → o = .ok out ∧
          Grown (s.table.rules.Sinks c.request out) c.state.recorder.scopes s'.recorder.scopes ∧
          ∀ f ref, ref ∈ s'.recorder.filed f ↔ ref ∈ c.state.recorder.filed f := by
  have hstart := Session.start_fresh table options register
  refine ⟨fun refs hrefs => ⟨?_, ?_⟩, ?_⟩
  · rintro rfl
    exact (Session.after?_fresh hs hstart).nonempty r hrefs
  · have hnone := hstart.recorded r hr
    have hserved := Session.start_served? table options register r
    rw [State.served?, if_pos hr] at hserved
    obtain ⟨before, st, later, c, out, rfl, rfl, hc⟩ :=
      Session.exists_computed hr hstart (hnone hserved) hs hrefs
    exact ⟨before, st, later, c, out, rfl, rfl, (hc.since later [] s (by simp) hs).1, hc⟩
  · rintro before later out s₁ response rfl hs₁ hok hlater
    rw [List.append_cons] at hs
    obtain ⟨s₂, hs₂, hrest⟩ := Session.after?_append.1 hs
    obtain ⟨s₁', hs₁', hnext⟩ := Session.after?_snoc.1 hs₂
    rw [hs₁] at hs₁'
    cases hs₁'
    have hput := Session.unrecorded_of_put hr (Session.after?_fresh hs₁ hstart) hok hnext
    have hun := hput.after? hr hlater hrest
    have hkept := Session.after?_kept hs (Session.start_kept table options register)
    exact ⟨hun.result, hun.recorded, fun st c hc hreq => hun.serves hr hkept hc hreq⟩

/-- On the ring, a result that is given for the last request keeps the circle from closing: the one
in the middle records what it writes itself, and the given result has no record. -/
theorem records_are_current_ring :
    let a : Request := .keyed .cached "a"
    let b : Request := .keyed .cached "b"
    let c : Request := .keyed .cached "c"
    let steps : List Step := [.command (.put c 7), .command (.evaluate [a])]
    ∃ s, (Session.start ring {} true).after? steps = some s ∧
      (∃ before st later call out, steps = before ++ st :: later ∧ call.request = b ∧
        s.state.result? b = some out ∧
        (Session.start ring {} true).Computed before st later call out [.topLevel "x"]) ∧
      s.state.result? c = some 7 ∧ s.state.recorded? c = none := by
  intro a b c steps
  have hrun : ((Session.start ring {} true).after? steps).any (fun s =>
      decide (s.state.recorded? b = some [.topLevel "x"])) = true := by
    decide +kernel
  have hput : ((Session.start ring {} true).step (.command (.put c 7))).1.result.isOk := by
    decide +kernel
  obtain ⟨s, hs, hstate⟩ := (Option.any_eq_true _ _).1 hrun
  have hb := (records_are_current ring {} true steps s hs b rfl).1 _ (of_decide_eq_true hstate)
  cases hresult : ((Session.start ring {} true).step (.command (.put c 7))).1.result with
  | error stop =>
    rw [hresult] at hput
    cases hput
  | ok response =>
    have hc := (records_are_current ring {} true steps s hs c rfl).2 [] [.command (.evaluate [a])]
      7 _ response rfl rfl hresult (by simp [Step.Drops, Command.Drops])
    exact ⟨s, hs, hb.2, hc.1, hc.2.1⟩

end Demand.Script
