import Demand.Proofs.Script.Session

/-!
# The engine agrees with plain recursion

In every state that a session with plain scripts comes to without being given results, a grounded
request whose computations are known is answered with the result of the plain evaluator, and no
request is asked for while it is active (`evaluate_eq_plain`). The references that it writes, and
those that are filed, are the references of plain recursion, whichever results are computed and
whichever are served (`references_eq_plain`).
-/

namespace Demand.Script

namespace Session

variable {table : Table} {exact : Prop} {s : Session}

/-- In a settled session, a grounded request whose computations are known is answered as by plain
recursion. -/
theorem Settled.exists_agrees (hplain : table.IsPlain) (hs : Settled table exact s) {n : Nat}
    {stack : List Request} {r : Request}
    (hb : Bounded (F := family) table.Asks table.requests.length n stack r)
    (hknown : ∀ q, Relation.ReflTransGen table.Asks r q → s.state.registry.knows q.kind)
    (hg : Grounded table.Asks r) :
    ∃ t s', table.rules.evaluate n stack r s.state = .ok (.ok t.result) s' ∧
      Agrees table.rules exact r s.state (.ok t.result) s' t :=
  Demand.exists_agrees table.lawful (fun r => (table.scripted_body r).asks)
    (fun r _ => (table.scripted_body r).oblivious hplain) (fun _ _ => Table.Asks.mem_requests) hb
    hs.owned hknown hs.memoized hg

/-- Every call of a step is made with fuel to spare, where what is served is settled. -/
theorem Settled.calls (hplain : table.IsPlain) (hs : Settled table exact s) {st : Step}
    {c : Call family} (hc : s.Calls st c) :
    Bounded (F := family) table.Asks table.requests.length c.fuel c.stack c.request ∧
      Settled table exact ⟨s.table, c.state⟩ ∧ c.state.registry = s.state.registry := by
  obtain rfl := hs.table_eq
  have hasks : ∀ r, (s.table.rules.body r).Asks (s.table.Asks r) :=
    fun r => (s.table.scripted_body r).asks
  refine Rules.CallsIn.of_invariant
    (I := fun s₁ => Settled s.table exact ⟨s.table, s₁⟩ ∧ s₁.registry = s.state.registry)
    (P := fun c => Bounded (F := family) s.table.Asks s.table.requests.length c.fuel c.stack
      c.request ∧ Settled s.table exact ⟨s.table, c.state⟩ ∧ c.state.registry = s.state.registry)
    (fun r s₀ o s₁ ho hs₀ => ?_) (fun r s₀ c hs₀ hc => ?_) hc ⟨hs, rfl⟩
  · have hafter := ((s.table.memo hplain).ends s.table.lawful _ [] r s₀
      ⟨hs₀.1.memoized, .start r⟩).of_ok ho
    exact ⟨hs₀.1.frame hafter.1.toFrame hafter.2.1, hafter.1.registry.trans hs₀.2⟩
  · have hstands := hc.stands s.table.lawful
    have hbounded := (bounded s.table.lawful hasks s.table.requests
      (fun _ _ => Table.Asks.mem_requests) fun _ => True).within s.table.lawful hc
      ⟨bounded_start s.table r, .inl fun _ => trivial⟩
    have hmemo := (s.table.memo hplain).within s.table.lawful hc ⟨hs₀.1.memoized, .start r⟩
    exact ⟨hbounded.1, ⟨rfl, hstands.persists.owned hs₀.1.owned, hmemo.1⟩,
      hstands.persists.registry.trans hs₀.2⟩

end Session

/-- The engine agrees with plain recursion in every state it comes to. -/
theorem evaluate_eq_plain (table : Table) (hplain : table.IsPlain) (options : Options)
    (register : Bool) (steps : List Step) (hsteps : ∀ st ∈ steps, ¬ st.IsPut ∧ ¬ st.IsEdit)
    (s : Session) (hs : (Session.start table options register).after? steps = some s)
    (r : Request) (hr : Grounded table.Asks r)
    (hknown : ∀ q, Relation.ReflTransGen table.Asks r q → s.state.registry.knows q.kind) :
    (∃ t ds, table.rules.Traces r t ∧
      (s.step (.command (.evaluate [r]))).1.result =
        .ok (.reply (.answers [⟨r, .ok t.result⟩])) ∧
      (s.step (.command (.evaluate [r]))).2.state.diagnostics = s.state.diagnostics ++ ds ∧
      ∀ d ∈ ds, d ∈ t.diagnostics) ∧
    ∀ c, s.Calls (.command (.evaluate [r])) c → c.request ∉ c.stack := by
  have hsettled := Session.after?_settled hplain hsteps False.elim
    (Session.start_settled table options register) hs
  obtain rfl := hsettled.table_eq
  obtain ⟨t, s', he, ht⟩ :=
    hsettled.exists_agrees hplain (Session.bounded_start s.table r) hknown hr
  constructor
  · obtain ⟨ds, hds, hmem⟩ := ht.diagnostics
    refine ⟨t, ds, ht.traces, ?_⟩
    have hall : s.table.rules.evaluateAll s.table.depth [r] s.state = .ok [⟨r, .ok t.result⟩] s' :=
      Rules.evaluateAll_cons.2 ⟨_, s', [], he, rfl, rfl⟩
    have hact : (Step.command (.evaluate [r])).act s.table s.state =
        .ok (.reply (.answers [⟨r, .ok t.result⟩])) s' :=
      Eval.bind_eq_ok.2 ⟨_, s', Eval.bind_eq_ok.2 ⟨_, s', hall, rfl⟩, rfl⟩
    rw [Session.step_eq_of_ok hact]
    exact ⟨rfl, hds, hmem⟩
  · rintro c (hc | ⟨o, s₁, -, hc⟩)
    · exact hr.not_mem_stack (fun r => (s.table.scripted_body r).asks) rfl hc
    · exact hc.elim

/-- After a cycle was found and all results were dropped, the source of the sample is answered as by
plain recursion. -/
theorem evaluate_eq_plain_sample :
    ∃ s t, (Session.start sample {} true).after? (sampleSteps ++ [.command .clearCache]) = some s ∧
      sample.rules.Traces (.filed .source ⟨1⟩ "a") t ∧
      (s.step (evaluateSource 1)).1.result =
        .ok (.reply (.answers [⟨.filed .source ⟨1⟩ "a", .ok t.result⟩])) := by
  have hrun : ((Session.start sample {} true).after? (sampleSteps ++ [.command .clearCache])).any
      (fun s => decide (s.state.registry.knows (.filed .source) ∧
        s.state.registry.knows (.keyed .external))) = true := by
    decide +kernel
  obtain ⟨s, hs, hknown⟩ := (Option.any_eq_true _ _).1 hrun
  obtain ⟨hsource, hexternal⟩ := of_decide_eq_true hknown
  obtain ⟨hreach, hg⟩ := @grounded_sample (.filed .source ⟨1⟩ "a") (by decide)
  have hsteps : ∀ st ∈ sampleSteps ++ [.command .clearCache], ¬ st.IsPut ∧ ¬ st.IsEdit := by
    intro st hst
    rcases List.mem_append.1 hst with hst | hst
    · exact sampleSteps_evaluate st hst
    · rw [List.mem_singleton.1 hst]
      exact ⟨id, id⟩
  have hknows : ∀ q, Relation.ReflTransGen sample.Asks (.filed .source ⟨1⟩ "a") q →
      s.state.registry.knows q.kind := by
    intro q hq
    rcases hreach q hq with rfl | rfl
    · exact hsource
    · exact hexternal
  obtain ⟨⟨t, -, ht, hresult, -⟩, -⟩ :=
    evaluate_eq_plain sample isPlain_sample {} true _ hsteps s hs _ hg hknows
  exact ⟨s, t, hs, ht, hresult⟩

/-! ## References -/

namespace Session

variable {table : Table} {s : Session}

/-- An answer agrees with plain recursion if its request is grounded. -/
theorem Settled.agrees {exact : Prop} (hplain : table.IsPlain) (hs : Settled table exact s)
    {st : Step} {c : Call family} (hc : s.Calls st c) {o : Outcome family c.request}
    {s' : State family} (ho : table.rules.answer c = .ok o s') (hg : Grounded table.Asks c.request) :
    ∃ t, Agrees table.rules exact c.request c.state o s' t := by
  obtain ⟨hb, hsc, -⟩ := hs.calls hplain hc
  have hafter := ((table.memo hplain).ends table.lawful _ _ _ _ ⟨hsc.memoized, hb.linked⟩).of_ok ho
  exact hafter.2.2 hg

/-- What an answered call of a grounded source records is the references of the source. -/
theorem Settled.files_iff (hplain : table.IsPlain) (hs : Settled table True s) {st : Step}
    {c : Call family} (hc : s.Calls st c) (hanswer : ∃ o s', table.rules.answer c = .ok o s')
    (hg : Grounded table.Asks c.request) {f : FileId} (hf : family.FiledUnder c.request f)
    (ref : Reference) : table.rules.Files f ref c ↔ table.References c.request ref := by
  obtain ⟨hb, -⟩ := hs.calls hplain hc
  obtain ⟨o, s', ho⟩ := hanswer
  obtain ⟨t, ht⟩ := hs.agrees hplain hc ho hg
  have hopens : family.opensScope c.request := by
    simp [Family.opensScope, hf.1]
  have hrec : s'.Records c.request ref ↔ table.References c.request ref :=
    (ht.recorded trivial hopens ref).trans (Table.references_of_traces hplain ht.traces ref)
  rw [← hrec]
  constructor
  · rintro ⟨-, -, o', s'', ho', hr⟩
    rw [ho] at ho'
    cases ho'
    exact hr
  · exact fun hr => ⟨hg.not_mem hb.linked, hf, o, s', ho, hr⟩

/-- A step files the references of the sources that it asks for. -/
theorem Settled.filed_next? (hplain : table.IsPlain) (hs : Settled table True s) {st : Step}
    {s' : Session} (h : s.next? st = some s') {f : FileId}
    (hf : ∀ c, s.Calls st c → family.FiledUnder c.request f → Grounded table.Asks c.request)
    (ref : Reference) :
    ref ∈ s'.state.recorder.filed f ↔ ref ∈ s.state.recorder.filed f ∨
      ∃ c, s.Calls st c ∧ family.FiledUnder c.request f ∧ table.References c.request ref := by
  obtain rfl := hs.table_eq
  have hnone : st.asked = [] → ∀ c, ¬ s.Calls st c := by
    intro ha c hc
    rw [Calls, ha] at hc
    exact hc
  rcases next?_cases h with ⟨-, as, s₁, hall, rfl⟩ | ⟨ha, c, s₁, -, he, rfl⟩ | ⟨ha, -, rfl⟩
  · show ref ∈ s₁.recorder.filed f ↔ _
    rw [Rules.filed_evaluateAll hall]
    refine or_congr_right (exists_congr fun c => and_congr_right fun hc => ?_)
    have hanswer := Rules.CallsIn.exists_answer hall hc
    constructor
    · intro hfiles
      have hfu := hfiles.2.1
      exact ⟨hfu, (hs.files_iff hplain hc hanswer (hf c hc hfu) hfu ref).1 hfiles⟩
    · rintro ⟨hfu, href⟩
      exact (hs.files_iff hplain hc hanswer (hf c hc hfu) hfu ref).2 href
  · show ref ∈ s₁.recorder.filed f ↔ _
    rw [he.filed]
    simp [hnone ha]
  · show ref ∈ s.state.recorder.filed f ↔ _
    simp [hnone ha]

/-- A run files the references of the sources that its steps ask for. -/
theorem filed_after? (hplain : table.IsPlain) {s₀ : Session} {steps : List Step}
    (hs₀ : ∀ f, s₀.state.recorder.filed f = [])
    (hsettled : ∀ before later s₁, steps = before ++ later → s₀.after? before = some s₁ →
      Settled table True s₁)
    (hs : s₀.after? steps = some s) {f : FileId}
    (hf : ∀ c, s₀.AllCalls steps c → family.FiledUnder c.request f → Grounded table.Asks c.request)
    (ref : Reference) :
    ref ∈ s.state.recorder.filed f ↔
      ∃ c, s₀.AllCalls steps c ∧ family.FiledUnder c.request f ∧
        table.References c.request ref := by
  induction steps using List.reverseRecOn generalizing s with
  | nil =>
    cases hs
    simp [hs₀, AllCalls]
  | append_singleton steps st ih =>
    obtain ⟨s₁, hs₁, hnext⟩ := after?_snoc.1 hs
    have hcalls : ∀ c, s₁.Calls st c → s₀.AllCalls (steps ++ [st]) c :=
      fun c hc => allCalls_snoc.2 (.inr ⟨s₁, hs₁, hc⟩)
    have hprev := ih (fun before later s₂ heq => hsettled before (later ++ [st]) s₂ (by simp [heq]))
      hs₁ fun c hc => hf c (allCalls_snoc.2 (.inl hc))
    rw [(hsettled steps [st] s₁ rfl hs₁).filed_next? hplain hnext fun c hc => hf c (hcalls c hc),
      hprev, ← exists_or]
    simp only [← or_and_right, allCalls_snoc_of_after? hs₁]

end Session

/-- A call of a grounded request adds its references to the innermost scope, however it is answered,
and the references filed under a file are those of the sources of the file that were asked for. -/
theorem references_eq_plain (table : Table) (hplain : table.IsPlain) (options : Options)
    (register : Bool) (steps : List Step) (hsteps : ∀ st ∈ steps, ¬ st.IsPut ∧ ¬ st.IsEdit)
    (hclear : ∀ before later s₁, steps = before ++ .command .clearCache :: later →
      (Session.start table options register).after? before = some s₁ →
      ∀ q, family.inStore q → s₁.state.served? q = none)
    (s : Session) (hs : (Session.start table options register).after? steps = some s) :
    (∀ st c, s.Calls st c → Grounded table.Asks c.request →
      (∀ q, Relation.ReflTransGen table.Asks c.request q → s.state.registry.knows q.kind) →
      ∀ scope outer, c.state.recorder.scopes = scope :: outer →
      ∃ v s' scope', table.rules.answer c = .ok (.ok v) s' ∧
        s'.recorder.scopes = scope' :: outer ∧
        ∀ ref, ref ∈ scope' ↔
          ref ∈ scope ∨ table.References c.request ref ∨ table.Sinks c.request ref) ∧
    ∀ f, (∀ c, (Session.start table options register).AllCalls steps c →
        family.FiledUnder c.request f → Grounded table.Asks c.request) →
      ∀ ref, ref ∈ s.state.recorder.filed f ↔
        ∃ c, (Session.start table options register).AllCalls steps c ∧
          family.FiledUnder c.request f ∧ table.References c.request ref := by
  have hsettled : ∀ before later s₁, steps = before ++ later →
      (Session.start table options register).after? before = some s₁ →
      Session.Settled table True s₁ := by
    rintro before later s₁ rfl hs₁
    refine Session.after?_settled hplain (fun st h => hsteps st (by simp [h])) ?_
      (Session.start_settled table options register) hs₁
    intro _ before' later' s₂ heq
    exact hclear before' (later' ++ later) s₂ (by simp [heq])
  constructor
  · intro st c hc hg hknown scope outer hscopes
    obtain ⟨hb, hsc, hreg⟩ := (hsettled steps [] s (by simp) hs).calls hplain hc
    rw [← hreg] at hknown
    obtain ⟨t, s', he, ht⟩ := hsc.exists_agrees hplain hb hknown hg
    have hgrown := ht.scopes trivial
    rw [hscopes] at hgrown
    obtain ⟨scope', hs', hmem⟩ := hgrown.exists_of_cons
    refine ⟨t.result, s', scope', he, hs', fun ref => ?_⟩
    rw [hmem, Table.references_of_traces hplain ht.traces]
    rfl
  · intro f hf
    obtain ⟨-, c, -, he⟩ := Session.start_effect table options register
    exact Session.filed_after? hplain (fun f => by rw [he.filed]) hsettled hs hf

/-- The stored result of the sample adds its references to the scope of a second source, and those
of the first source are filed. -/
theorem references_eq_plain_sample :
    ∃ s, (Session.start sample {} true).after? sampleSteps = some s ∧
      (∃ c v s' scope', s.Calls (evaluateSource 2) c ∧ c.request = .keyed .external "e" ∧
        sample.rules.answer c = .ok (.ok v) s' ∧ s'.recorder.scopes = [scope'] ∧
        ∀ ref, ref ∈ scope' ↔
          ref ∈ ([] : Scope) ∨ sample.References c.request ref ∨ sample.Sinks c.request ref) ∧
      ∀ ref, ref ∈ s.state.recorder.filed ⟨1⟩ ↔
        ∃ c, (Session.start sample {} true).AllCalls sampleSteps c ∧
          family.FiledUnder c.request ⟨1⟩ ∧ sample.References c.request ref := by
  have hrun : ((Session.start sample {} true).after? sampleSteps).any
      (fun s => decide (s.state.registry.knows (.filed .source) ∧
        s.state.registry.knows (.keyed .external) ∧
        s.state.served? (.filed .source ⟨2⟩ "a") = none ∧
        s.state.recorder.scopes = [])) = true := by
    decide +kernel
  obtain ⟨s, hs, hstate⟩ := (Option.any_eq_true _ _).1 hrun
  obtain ⟨hsource, hexternal, hnone, hscopes⟩ := of_decide_eq_true hstate
  have hsettled := Session.after?_settled isPlain_sample sampleSteps_evaluate False.elim
    (Session.start_settled sample {} true) hs
  -- the cache is cleared while nothing is stored
  have hclear : ∀ before later s₁, sampleSteps = before ++ .command .clearCache :: later →
      (Session.start sample {} true).after? before = some s₁ →
      ∀ q, family.inStore q → s₁.state.served? q = none := by
    intro before later s₁ heq hs₁ q _
    cases before with
    | nil =>
      cases hs₁
      exact Session.start_served? sample {} true q
    | cons st before =>
      have hmem : Step.command .clearCache ∈ sampleSteps.tail := by
        rw [heq]
        simp
      simp [sampleSteps, evaluateSource] at hmem
  obtain ⟨hcalls, hfiled⟩ := references_eq_plain sample isPlain_sample {} true _
    sampleSteps_evaluate hclear s hs
  refine ⟨s, hs, ?_, hfiled ⟨1⟩ fun c _ hc => (grounded_sample ?_).2⟩
  · obtain ⟨c, hc, hreq, hscope⟩ := @Session.exists_first_call s (.filed .source ⟨2⟩ "a") _ _ _ _
      (by rw [hsettled.table_eq]; rfl) rfl rfl hsettled.owned hsource hnone
    rw [hscopes] at hscope
    have hkind : c.request.kind ≠ .keyed .cached := by
      rw [hreq]
      decide
    obtain ⟨hreach, hg⟩ := grounded_sample hkind
    have hknows : ∀ q, Relation.ReflTransGen sample.Asks c.request q →
        s.state.registry.knows q.kind := by
      intro q hq
      rcases hreach q hq with rfl | rfl
      · rw [hreq]
        exact hexternal
      · exact hexternal
    obtain ⟨v, s', scope', hanswer, hs', hmem⟩ := hcalls _ c hc hg hknows [] [] hscope
    exact ⟨c, v, s', scope', hc, hreq, hanswer, hs', hmem⟩
  · intro hkind
    have hsource := hc.1
    rw [Family.policyOf, show family.kind c.request = _ from hkind] at hsource
    cases hsource

end Demand.Script
