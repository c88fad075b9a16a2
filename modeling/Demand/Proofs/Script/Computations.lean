import Demand.Proofs.Engine.Order
import Demand.Proofs.Script.Session
import Mathlib.Data.List.Dedup

/-!
# How deep and how often scripts are computed

Scripts may mention each other in any way. Still no request is active twice at a time, so that
evaluations nest no deeper than the table has requests, and one of them ends with as much fuel as
that (`evaluation_ends`). A request whose result is remembered is computed again only after it was
dropped (`computed_at_most_once`): every step keeps the number of computations and of results in
balance (`Session.count_next?`), and so does every run (`Session.count_after?`).
-/

namespace Demand.Script

/-! ## Evaluations end -/

/-- However the scripts lead to each other and whatever the state, an evaluation with enough fuel
ends with an answer or at a fault, makes finitely many calls, and has no request active twice. -/
theorem evaluation_ends (t : Table) (r : Request) (s : State family) :
    (∀ n ≥ t.requests.dedup.length + 2,
      t.rules.evaluate n [] r s = t.rules.evaluate t.depth [] r s) ∧
      ((∃ o s', t.rules.evaluate t.depth [] r s = .ok o s') ∨
        ∃ f s', t.rules.evaluate t.depth [] r s = .error (.fault f) s') ∧
      ∀ n c, t.rules.Within ⟨n, [], r, s⟩ c → c ∈ t.rules.calls n [] r s ∧ c.active.Nodup ∧
        c.active.length ≤ t.requests.dedup.length + 1 := by
  have hasks : ∀ q, (t.rules.body q).Asks (t.Asks q) := fun q => (t.scripted_body q).asks
  have hus : ∀ p q, t.Asks p q → q ∈ t.requests.dedup := fun p q h =>
    List.mem_dedup.2 h.mem_requests
  let stops : Stop family → Prop := fun e => e ≠ .exhausted
  have hends : Eval.Ends stops (t.rules.evaluate (t.requests.dedup.length + 2) [] r) s _ :=
    (bounded t.lawful hasks t.requests.dedup hus stops).ends t.lawful _ [] r s
      ⟨⟨.start r, List.nodup_nil, Nat.le_refl _⟩, .inl fun f => by simp [stops]⟩
  have hnot : ¬ (t.rules.evaluate (t.requests.dedup.length + 2) [] r).Exhausts s := by
    rintro ⟨s', hs'⟩
    rw [Eval.Ends, hs'] at hends
    exact hends rfl
  have hsame : ∀ n ≥ t.requests.dedup.length + 2, t.rules.evaluate n [] r s =
      t.rules.evaluate (t.requests.dedup.length + 2) [] r s := fun n hn =>
    (t.rules.evaluate_of_le hn [] r s).resolve_left hnot
  have hdepth : t.depth ≥ t.requests.dedup.length + 2 := by
    have hle := (List.dedup_sublist t.requests).length_le
    unfold Table.depth
    omega
  refine ⟨fun n hn => (hsame n hn).trans (hsame t.depth hdepth).symm, ?_, ?_⟩
  · rw [hsame t.depth hdepth]
    cases he : t.rules.evaluate (t.requests.dedup.length + 2) [] r s with
    | ok o s' => exact .inl ⟨o, s', rfl⟩
    | error e s' =>
      cases e with
      | fault f => exact .inr ⟨f, s', rfl⟩
      | exhausted => exact absurd ⟨s', he⟩ hnot
  · intro n c hc
    exact ⟨Rules.mem_calls.2 hc, hc.nodup_active List.nodup_nil, hc.length_active_le hasks hus rfl⟩

/-- The request of the sample that asks for itself is active once in both of its calls. -/
theorem evaluation_ends_loop :
    let s := (Session.start sample {} true).state
    let r : Request := .keyed .cached "loop"
    sample.rules.evaluate 100 [] r s = sample.rules.evaluate sample.depth [] r s ∧
      (sample.rules.calls 100 [] r s).map Call.active = [[r], [r]] ∧
      ∀ c ∈ sample.rules.calls 100 [] r s, c.active.Nodup ∧ c.active.length ≤ 3 := by
  intro s r
  have hends := evaluation_ends sample r s
  refine ⟨hends.1 100 (by decide +kernel), by decide +kernel, fun c hc => ?_⟩
  exact (hends.2.2 100 c (Rules.mem_calls.1 hc)).2

/-! ## Results that are remembered are computed once -/

/-- The step drops the result of the request. -/
def Step.Drops (r : Request) : Step → Prop
  | command c => c.Drops r
  | _ => False

namespace Session

/-- The requests that are computed in steps one after the other. -/
def computations (s : Session) (steps : List Step) : List Request :=
  stepper.collect
    (fun s st => s.table.rules.computationsAll s.table.depth st.asked s.state) s steps

variable {s s' : Session} {r : Request}

/-- A step computes a request whose result is remembered only if there is a result of it afterwards
that was not there before. -/
theorem count_next? (hr : family.Remembers r) {st : Step} (hst : family.inStore r ∨ ¬ st.Drops r)
    (h : s.next? st = some s') :
    (s.table.rules.computationsAll s.table.depth st.asked s.state).count r + s.state.results r ≤
      s'.state.results r := by
  have hquiet : ∀ s₁ : State family, (quiet s₁).results r = s₁.results r := fun s₁ =>
    State.results_congr ((still_quiet s₁).served? r)
  rcases next?_cases h with ⟨-, as, s₁, hall, rfl⟩ | ⟨hasked, c, s₁, rfl, he, rfl⟩ |
    ⟨hasked, -, rfl⟩
  · rw [hquiet]
    exact Nat.le_of_eq (Rules.count_computationsAll s.table.lawful hr hall)
  · have hkept : (s.state.served? r).isSome → (s₁.served? r).isSome := by
      rcases hst with hstore | hdrops
      · exact he.stored r hstore
      · exact he.kept r hdrops
    rw [hasked, hquiet, Rules.computationsAll, List.count_nil, Nat.zero_add]
    unfold State.results
    split
    next hserved => rw [if_pos (hkept hserved)]
    next => exact Nat.zero_le _
  · rw [hasked, hquiet, Rules.computationsAll, List.count_nil, Nat.zero_add]

theorem count_after? (hr : family.Remembers r) {steps : List Step}
    (hsteps : family.inStore r ∨ ∀ st ∈ steps, ¬ st.Drops r) (h : s.after? steps = some s') :
    (s.computations steps).count r + s.state.results r ≤ s'.state.results r := by
  induction steps generalizing s with
  | nil =>
    cases h
    rw [computations, Stepper.collect, List.count_nil, Nat.zero_add]
  | cons st steps ih =>
    rw [after?, List.foldlM_cons] at h
    obtain ⟨s₁, hnext, hrest⟩ := Option.bind_eq_some_iff.1 h
    have hst : family.inStore r ∨ ¬ st.Drops r :=
      hsteps.imp id fun hd => hd st List.mem_cons_self
    have hfirst := count_next? hr hst hnext
    have hlater := ih (hsteps.imp id fun hd st hmem => hd st (List.mem_cons_of_mem _ hmem)) hrest
    have hcollect : s.computations (st :: steps) =
        s.table.rules.computationsAll s.table.depth st.asked s.state ++ s₁.computations steps := by
      show _ ++ (s.next? st).elim [] _ = _
      rw [hnext]
      rfl
    rw [hcollect, List.count_append]
    omega

/-- A result that a step gives is there afterwards. -/
theorem results_of_put (hr : family.inEngine r) {out : Int64} {report : Report}
    {response : Response} (h : s.step (.command (.put r out)) = (report, s'))
    (hok : report.result = .ok response) : s'.state.results r = 1 := by
  cases ha : (Step.command (.put r out)).act s.table s.state with
  | error stop s₁ =>
    rw [step_eq_of_error ha] at h
    obtain ⟨rfl, -⟩ := Prod.mk.inj h
    cases hok
  | ok x s₁ =>
    rw [step_eq_of_ok ha] at h
    obtain ⟨-, rfl⟩ := Prod.mk.inj h
    obtain ⟨reply, s₂, hrun, hreply⟩ := Eval.bind_eq_ok.1 ha
    cases hreply
    obtain ⟨_, s₃, hput, hdone⟩ := Eval.bind_eq_ok.1 hrun
    cases hdone
    have hserved := Command.served?_of_putResult hr hput
    show (quiet s₁).results r = 1
    rw [State.results_congr ((still_quiet s₁).served? r), State.results, hserved]
    rfl

end Session

/-- In steps that do not drop its result, a request whose result is kept in the engine is computed
once at most, and not at all if a result was given before them. A store outside the engine that
remembers has each of its requests computed once at most, whatever is dropped. And no evaluation,
in whatever state, stops because a result is there already. -/
theorem computed_at_most_once :
    (∀ (s s' : Session) (steps : List Step) (r : Request), s.after? steps = some s' →
      (family.inEngine r → (∀ st ∈ steps, ¬ st.Drops r) →
        (s.computations steps).count r ≤ 1 ∧
        ∀ (s₀ : Session) (out : Int64) (report : Report) (response : Response),
          s₀.step (.command (.put r out)) = (report, s) → report.result = .ok response →
          r ∉ s.computations steps) ∧
      (family.inStore r → (∀ out w, family.fetch r (family.store r out w) = some out) →
        (s.computations steps).count r ≤ 1)) ∧
      ∀ (t : Table) (n : Nat) (stack : List Request) (r q : Request) (s s' : State family),
        t.rules.evaluate n stack r s ≠ .error (.fault (.alreadyCached q)) s' := by
  refine ⟨fun s s' steps r h => ⟨fun hr hsteps => ⟨?_, ?_⟩, fun hr hfetch => ?_⟩,
    fun t => Rules.evaluate_ne_alreadyCached t.lawful⟩
  · have hcount := Session.count_after? (.inl hr) (.inr hsteps) h
    have hle := s'.state.results_le_one r
    omega
  · intro s₀ out report response hstep hok
    have hcount := Session.count_after? (.inl hr) (.inr hsteps) h
    have hone := Session.results_of_put hr hstep hok
    have hle := s'.state.results_le_one r
    rw [← List.count_eq_zero]
    omega
  · have hcount := Session.count_after? (.inr ⟨hr, hfetch⟩) (.inl hr) h
    have hle := s'.state.results_le_one r
    omega

/-- On the sample, a request that is evaluated twice is computed once, and not at all after its
result was given; the stored result is computed once though the cache is cleared. -/
theorem computed_at_most_once_sample :
    let s := Session.start sample {} true
    let r : Request := .keyed .cached "loop"
    let e : Request := .keyed .external "e"
    let evaluate : Step := .command (.evaluate [r])
    (s.computations [evaluate, evaluate]).count r ≤ 1 ∧ r ∈ s.computations [evaluate, evaluate] ∧
      r ∉ (s.step (.command (.put r 7))).2.computations [evaluate, evaluate] ∧
      (s.computations [evaluateSource 1, .command .clearCache, evaluateSource 2]).count e ≤ 1 := by
  intro s r e evaluate
  have hkeep : ∀ st ∈ [evaluate, evaluate], ¬ st.Drops r := by
    simp [evaluate, Step.Drops, Command.Drops]
  have hrun : (s.after? [evaluate, evaluate]).isSome := by decide +kernel
  have hgiven : ((s.step (.command (.put r 7))).2.after? [evaluate, evaluate]).isSome := by
    decide +kernel
  have hput : (s.step (.command (.put r 7))).1.result.isOk := by decide +kernel
  have hstore : (s.after? [evaluateSource 1, .command .clearCache, evaluateSource 2]).isSome := by
    decide +kernel
  obtain ⟨s₁, hs₁⟩ := Option.isSome_iff_exists.1 hrun
  obtain ⟨s₂, hs₂⟩ := Option.isSome_iff_exists.1 hgiven
  obtain ⟨s₃, hs₃⟩ := Option.isSome_iff_exists.1 hstore
  refine ⟨?_, by decide +kernel, ?_, ?_⟩
  · exact ((computed_at_most_once.1 s s₁ _ r hs₁).1 rfl hkeep).1
  · cases hresult : (s.step (.command (.put r 7))).1.result with
    | error stop =>
      rw [hresult] at hput
      cases hput
    | ok response =>
      exact ((computed_at_most_once.1 _ s₂ _ r hs₂).1 rfl hkeep).2 s 7 _ response rfl hresult
  · refine (computed_at_most_once.1 s s₃ _ e hs₃).2 rfl fun out w => ?_
    exact (fetch_store e out w).resolve_right fun hnone => by
      have hsome : family.fetch e (family.store e 0 {}) = some 0 := by decide +kernel
      rw [hnone] at hsome
      cases hsome

end Demand.Script
