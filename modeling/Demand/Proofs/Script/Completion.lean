import Demand.Proofs.Engine.Completion
import Demand.Proofs.Script.Session

/-!
# What runs of scripts come to

A plain script asks for all that it mentions, unless an answer is an error (`Table.covers_body`). So
a session without cycles has asked for all that its requests lead to (`Session.completes_after?`).
Sessions go on as long as the computations they need are known (`Session.exists_after?`).
-/

namespace Demand.Script

/-! ## Plain scripts ask for all that they mention -/

theorem covers_done {α : Type} {Q : α → Prop} {a : α} (h : Q a) :
    (Task.done (F := family) a).Covers Q fun _ => False :=
  ⟨fun _ h => h, h⟩

theorem covers_event (text : String) :
    (event text).Covers (fun _ => True) fun _ => False :=
  fun _ => ⟨fun _ h => h, trivial⟩

theorem covers_evaluate (r : Request) :
    (Task.evaluate (F := family) r).Covers (fun o => ∃ v, o = .ok v) fun q => q = r :=
  fun v => ⟨fun _ hq => hq.2 hq.1, v, rfl⟩

theorem covers_evaluate_bind {β : Type} {r : Request} {f : Outcome family r → Task family β}
    {Q : β → Prop} (hf : ∀ v, (f (.ok v)).Covers Q fun _ => False) :
    (Task.evaluate (F := family) r >>= f).Covers Q fun q => q = r := by
  have hnext : ∀ o : Outcome family r, (∃ v, o = .ok v) → (f o).Covers Q fun _ => False := by
    rintro o ⟨v, rfl⟩
    exact hf v
  exact ((covers_evaluate r).bind hnext).anti fun q hq => .inl hq

theorem covers_evaluateAll (rs : List Request) :
    (evaluateAll rs).Covers (fun as => ∀ a ∈ as, ∃ v, a.outcome = .ok v) fun q => q ∈ rs := by
  induction rs with
  | nil => exact ⟨by simp, by simp⟩
  | cons r rs ih =>
    have hboth : ∀ (o : Outcome family r) (as : List (Answer family)), (∃ v, o = .ok v) →
        (∀ a ∈ as, ∃ v, a.outcome = .ok v) →
        ∀ a ∈ (⟨r, o⟩ :: as : List (Answer family)), ∃ v, a.outcome = .ok v := by
      intro o as ho has a ha
      rcases List.mem_cons.1 ha with rfl | ha
      · exact ho
      · exact has a ha
    refine ((covers_evaluate r).bind fun o ho => ih.bind fun as has =>
      covers_done (hboth o as ho has)).anti fun q hq => ?_
    exact (List.mem_cons.1 hq).imp id .inl

theorem covers_addAnswers (total : Int64) {as : List (Answer family)}
    (has : ∀ a ∈ as, ∃ v, a.outcome = .ok v) :
    (addAnswers total as).Covers (fun _ => True) fun _ => False := by
  induction as generalizing total with
  | nil => exact covers_done trivial
  | cons a rest ih =>
    obtain ⟨v, hv⟩ := has a List.mem_cons_self
    unfold addAnswers
    rw [hv]
    exact ih (total + v) fun b hb => has b (List.mem_cons_of_mem a hb)

/-- A plain action asks for the requests that it mentions, and the actions go on. -/
theorem covers_perform (total : Int64) {a : Action} (ha : a.IsPlain) :
    (a.perform total).Covers (fun tally => tally.ended = false) fun q => q ∈ a.requests := by
  cases a with
  | add n =>
    rw [Action.perform]
    refine Task.Covers.anti (covers_done rfl) ?_
    simp [Action.requests]
  | evaluate r d =>
    rw [Action.perform]
    refine Task.Covers.anti (covers_evaluate_bind fun v => covers_done rfl) ?_
    simp [Action.requests]
  | attempt r =>
    rw [Action.perform]
    refine Task.Covers.anti (covers_evaluate_bind fun v => covers_done rfl) ?_
    simp [Action.requests]
  | need r =>
    rw [Action.perform]
    refine Task.Covers.anti (covers_evaluate_bind fun v => covers_done rfl) ?_
    simp [Action.requests]
  | batch rs =>
    rw [Action.perform]
    refine Task.Covers.anti ((covers_evaluateAll rs).bind fun as has =>
      (covers_addAnswers total has).bind fun _ _ => covers_done rfl) ?_
    simp [Action.requests]
  | record ref =>
    rw [Action.perform]
    refine Task.Covers.anti (covers_done rfl) ?_
    simp [Action.requests]
  | report d =>
    rw [Action.perform]
    refine Task.Covers.anti (covers_done rfl) ?_
    simp [Action.requests]
  | isActive r => exact ha.elim
  | current => exact ha.elim
  | ifActive r yes no => exact ha.elim

theorem covers_performAll (total : Int64) {as : List Action} (has : ∀ a ∈ as, a.IsPlain) :
    (Action.performAll total as).Covers (fun _ => True) fun q => q ∈ Action.requestsOf as := by
  induction as generalizing total with
  | nil =>
    rw [Action.performAll]
    exact ⟨by simp [Action.requestsOf], trivial⟩
  | cons a rest ih =>
    rw [Action.performAll]
    have hrest : ∀ tally : Tally, tally.ended = false →
        (if tally.ended then pure tally else Action.performAll tally.total rest).Covers
          (fun _ => True) fun q => q ∈ Action.requestsOf rest := by
      intro tally htally
      rw [htally]
      exact ih tally.total fun b hb => has b (List.mem_cons_of_mem a hb)
    refine ((covers_perform total (has a List.mem_cons_self)).bind hrest).anti fun q hq => ?_
    rw [Action.requestsOf] at hq
    exact List.mem_append.1 hq

theorem Table.covers_body {t : Table} (hp : t.IsPlain) (r : Request) :
    (t.rules.body r).Covers (fun _ => True) (t.Asks r) := by
  have htotal : (t.total r).Covers (fun _ => True) (t.Asks r) := by
    unfold total Asks mentions
    cases hf : t.find? r with
    | none => exact ⟨by simp, trivial⟩
    | some e =>
      exact ((covers_performAll 0 fun a ha => hp _ (mem_of_find? hf) a ha).bind
        fun _ _ => covers_done trivial).anti fun q hq => .inl hq
  exact ((covers_event _).bind fun _ _ => htotal.bind fun _ _ => (covers_event _).bind
    fun _ _ => covers_done trivial).anti fun q hq => .inr (.inl hq)

namespace Session

variable {table : Table} {s₀ s s' : Session} {st : Step} {steps : List Step}

/-! ## Sessions that go on -/

/-- The scripts are those of the table, the tables belong to known kinds, and what was known at
first is known. -/
structure Able (table : Table) (s₀ s : Session) : Prop where
  table_eq : s.table = table
  owned : s.state.Owned
  knows : ∀ k, s₀.state.registry.knows k → s.state.registry.knows k

theorem Able.persists (h : Able table s₀ s) {s₁ : State family} (hp : Persists [] s.state s₁) :
    Able table s₀ ⟨s.table, s₁⟩ :=
  ⟨h.table_eq, hp.owned h.owned, fun k hk => by rw [hp.registry]; exact h.knows k hk⟩

theorem Able.next? (h : Able table s₀ s) (hput : ¬ st.IsPut) (hedit : ¬ st.IsEdit)
    (hs : s.next? st = some s') : Able table s₀ s' := by
  rcases next?_cases hs with ⟨-, as, s₁, hall, rfl⟩ | ⟨-, c, s₁, rfl, he, rfl⟩ | ⟨-, -, rfl⟩
  · have hs₁ : Able table s₀ ⟨s.table, s₁⟩ := by
      refine Rules.evaluateAll_invariant (I := fun s₁ => Able table s₀ ⟨s.table, s₁⟩) ?_ hall h
      exact fun r s₁ o s₂ ho hs₁ =>
        hs₁.persists (Rules.answers_of_evaluate s.table.lawful ho).toPersists
    exact hs₁.persists (still_quiet s₁).frame.toPersists
  · have hs₁ : Able table s₀ ⟨s.table, s₁⟩ :=
      ⟨h.table_eq, ⟨he.cache_owned hput h.owned.1, he.recorded_owned h.owned.2⟩,
        fun k hk => he.knows k (h.knows k hk)⟩
    exact hs₁.persists (still_quiet s₁).frame.toPersists
  · rw [Step.edited_of_not_edit hedit]
    exact h.persists (still_quiet s.state).frame.toPersists

theorem start_able (table : Table) (options : Options) (register : Bool) :
    Able table (start table options register) (start table options register) := by
  obtain ⟨htable, c, hput, he⟩ := start_effect table options register
  exact ⟨htable, ⟨he.cache_owned hput Tables.owned_empty,
    he.recorded_owned Tables.owned_empty⟩, fun _ hk => hk⟩

/-- All that is needed is known, if the requests that are asked for and those of the table are of
known kinds. -/
theorem known_of_requests {s : State family}
    (hsteps : ∀ st ∈ steps, ∀ r ∈ st.asked, s.registry.knows r.kind)
    (htable : ∀ q ∈ table.requests, s.registry.knows q.kind) :
    ∀ st ∈ steps, ∀ r ∈ st.asked, ∀ q, Relation.ReflTransGen table.Asks r q →
      s.registry.knows q.kind := by
  intro st hst r hr q hq
  rcases hq.cases_tail with rfl | ⟨p, -, hp⟩
  · exact hsteps st hst _ hr
  · exact htable q hp.mem_requests

/-- Requests whose computations are known are answered one after the other. -/
theorem Able.exists_evaluateAll (h : Able table s₀ s) {rs : List Request}
    (hknown : ∀ r ∈ rs, ∀ q, Relation.ReflTransGen table.Asks r q →
      s₀.state.registry.knows q.kind) :
    ∃ as s₁, s.table.rules.evaluateAll s.table.depth rs s.state = .ok as s₁ := by
  induction rs generalizing s with
  | nil => exact ⟨[], s.state, rfl⟩
  | cons r rs ih =>
    have hends := (bounded s.table.lawful (fun r => (s.table.scripted_body r).asks)
      s.table.requests (fun _ _ => Table.Asks.mem_requests) fun _ => False).ends s.table.lawful
      s.table.depth [] r s.state ⟨bounded_start s.table r, .inr ⟨h.owned, fun q hq => ?_⟩⟩
    · obtain ⟨o, s₁, ho, hanswers, -⟩ := hends.exists_ok
      obtain ⟨as, s₂, hrest⟩ := ih (h.persists hanswers.toPersists)
        fun r' hr' => hknown r' (List.mem_cons_of_mem r hr')
      exact ⟨_, s₂, Rules.evaluateAll_cons.2 ⟨o, s₁, as, ho, hrest, rfl⟩⟩
    · rw [h.table_eq] at hq
      exact h.knows _ (hknown r List.mem_cons_self q hq)

theorem Able.exists_next? (h : Able table s₀ s)
    (hknown : ∀ r ∈ st.asked, ∀ q, Relation.ReflTransGen table.Asks r q →
      s₀.state.registry.knows q.kind) : ∃ s', s.next? st = some s' := by
  by_cases hst : st.isEvaluation = true
  · obtain ⟨as, s₁, hall⟩ := h.exists_evaluateAll hknown
    have hact : ∃ response s₁, st.act s.table s.state = .ok response s₁ := by
      cases st with
      | command c =>
        cases c with
        | evaluate rs =>
          exact ⟨_, s₁, Eval.bind_eq_ok.2 ⟨_, s₁, Eval.bind_eq_ok.2 ⟨as, s₁, hall, rfl⟩, rfl⟩⟩
        | _ => cases hst
      | evaluateD r d =>
        obtain ⟨o, s₂, rest, ho, -⟩ := Rules.evaluateAll_cons.1 hall
        exact ⟨_, s₂, Eval.bind_eq_ok.2 ⟨o, s₂, ho, rfl⟩⟩
      | _ => cases hst
    obtain ⟨response, s₁, hact⟩ := hact
    exact ⟨⟨st.edited s.table, quiet s₁⟩, next?_of_ok hact⟩
  · exact ⟨_, next?_of_not_evaluation (by simpa using hst)⟩

/-- A session goes on if the computations that it needs are known. -/
theorem Able.exists_after? (h : Able table s₀ s)
    (hsteps : ∀ st ∈ steps, ¬ st.IsPut ∧ ¬ st.IsEdit)
    (hknown : ∀ st ∈ steps, ∀ r ∈ st.asked, ∀ q, Relation.ReflTransGen table.Asks r q →
      s₀.state.registry.knows q.kind) : ∃ s', s.after? steps = some s' ∧ Able table s₀ s' := by
  induction steps using List.reverseRecOn with
  | nil => exact ⟨s, rfl, h⟩
  | append_singleton steps st ih =>
    obtain ⟨s₁, hs₁, hable⟩ := ih (fun st h => hsteps st (by simp [h]))
      fun st h => hknown st (by simp [h])
    obtain ⟨s₂, hs₂⟩ := hable.exists_next? (hknown st (by simp))
    have hst := hsteps st (by simp)
    exact ⟨s₂, after?_snoc.2 ⟨s₁, hs₁, hs₂⟩, hable.next? hst.1 hst.2 hs₂⟩

theorem Able.after? (h : Able table s₀ s) (hsteps : ∀ st ∈ steps, ¬ st.IsPut ∧ ¬ st.IsEdit)
    (hs : s.after? steps = some s') : Able table s₀ s' :=
  after?_invariant
    (fun st hst _ _ hnext h => h.next? (hsteps st hst).1 (hsteps st hst).2 hnext) hs h

/-! ## What sessions lead to -/

/-- What passes to a request from all that its script mentions holds of every request that is asked
for in a session without cycles. -/
theorem completes_after? (hplain : table.IsPlain) (hs : Able table s₀ s)
    (hsteps : ∀ st ∈ steps, ¬ st.IsPut ∧ ¬ st.IsEdit) (h : s.after? steps = some s')
    {D : Request → Prop} (hno : ∀ c, s.AllCalls steps c → c.request ∉ c.stack)
    (hD : ∀ c, s.AllCalls steps c → (∀ q, table.Asks c.request q → D q) → D c.request)
    (hserved : ∀ q, s.state.served? q ≠ none → D q) :
    (∀ c, s.AllCalls steps c → D c.request) ∧ ∀ q, s'.state.served? q ≠ none → D q := by
  induction steps using List.reverseRecOn generalizing s' with
  | nil =>
    cases h
    exact ⟨fun c hc => absurd hc (not_allCalls_nil c), hserved⟩
  | append_singleton steps st ih =>
    obtain ⟨s₁, hs₁, hnext⟩ := after?_snoc.1 h
    have hsteps₁ : ∀ st ∈ steps, ¬ st.IsPut ∧ ¬ st.IsEdit := fun st h => hsteps st (by simp [h])
    simp only [allCalls_snoc_of_after? hs₁] at hno hD ⊢
    obtain ⟨hearlier, hserved₁⟩ := ih hsteps₁ hs₁ (fun c hc => hno c (.inl hc))
      fun c hc => hD c (.inl hc)
    have hlast : (∀ c, s₁.Calls st c → D c.request) ∧ ∀ q, s'.state.served? q ≠ none → D q := by
      obtain rfl := (hs.after? hsteps₁ hs₁).table_eq
      rcases next?_cases hnext with ⟨-, as, s₂, hall, rfl⟩ | ⟨hasked, c, s₂, rfl, he, rfl⟩ |
        ⟨hasked, -, rfl⟩
      · obtain ⟨hcalled, hserved₂⟩ := Rules.completes_evaluateAll (Table.covers_body hplain)
          s₁.table.lawful hall (fun c hc => hno c (.inr hc)) (fun c hc => hD c (.inr hc)) hserved₁
        exact ⟨hcalled, fun q hq => hserved₂ q (by rw [← (still_quiet s₂).served?]; exact hq)⟩
      · have hput : ¬ c.IsPut := (hsteps (.command c) (by simp)).1
        refine ⟨fun c hc => absurd hc (not_calls_of_asked hasked c), fun q hq => hserved₁ q ?_⟩
        rw [(still_quiet s₂).served?] at hq
        obtain ⟨v, hv⟩ := Option.ne_none_iff_exists'.1 hq
        rw [he.served hput q v hv]
        simp
      · refine ⟨fun c hc => absurd hc (not_calls_of_asked hasked c), fun q hq => hserved₁ q ?_⟩
        rw [← (still_quiet s₁.state).served?]
        exact hq
    exact ⟨fun c hc => hc.elim (hearlier c) (hlast.1 c), hlast.2⟩

end Session

end Demand.Script
