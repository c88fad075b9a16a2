import Demand.Proofs.Engine.Order
import Demand.Proofs.Script.Agreement
import Demand.Proofs.Script.Aids
import Demand.Proofs.Script.Cycles

/-!
# The order of evaluations

Where no request leads to itself, the requests that a session of evaluations calls are those that
the requests asked for from outside lead to (`Session.called_iff`). What it leaves in the cache, in
the store outside the engine, in the records and under the files is what plain recursion gives for
these (`Session.Holds`). So it does not matter in what order and how often the requests are asked
for (`order_does_not_matter`).
-/

namespace Demand.Script

theorem Step.not_put_of_isEvaluation {st : Step} (h : st.isEvaluation = true) :
    ¬ st.IsPut ∧ ¬ st.IsEdit := by
  cases st with
  | command c =>
    cases c with
    | put r out => cases h
    | _ => exact ⟨id, id⟩
  | edit changes => cases h
  | evaluateD | options | listing => exact ⟨id, id⟩

/-! ## What a request that stores remembers -/

theorem remembers_of_inStore {q : Request} (hq : family.inStore q) (hh : q.isHooked) :
    family.Remembers q := by
  refine .inr ⟨hq, fun out w => ?_⟩
  simp [family, hh, World.fetch, World.store]

theorem fetch_of_hooked {q : Request} (hh : q.isHooked) (w : World) :
    family.fetch q w = w.fetch q.text :=
  if_pos hh

theorem served?_of_hooked {q : Request} (hq : family.inStore q) (hh : q.isHooked)
    {s : State family} : s.served? q = s.world.fetch q.text := by
  rw [State.served?_of_inStore hq, fetch_of_hooked hh]

/-- Every text in the store is that of a request whose result is kept there. -/
def World.Tidy (w : World) : Prop :=
  ∀ text v, w.fetch text = some v → ∃ q, family.inStore q ∧ q.isHooked ∧ q.text = text

theorem World.Tidy.of_stored {w w' : World} (h : w.Tidy) (hs : w'.stored = w.stored) : w'.Tidy := by
  intro text v hv
  rw [fetch, hs] at hv
  exact h text v hv

theorem World.Tidy.store {w : World} (h : w.Tidy) {r : Request} (hr : family.inStore r)
    (out : Int64) : World.Tidy (family.store r out w) := by
  show World.Tidy (if r.isHooked then w.store r.text out else w)
  split
  next hh =>
    intro text v hv
    by_cases ht : text = r.text
    · exact ⟨r, hr, hh, ht.symm⟩
    · rw [World.fetch_store_of_ne w ht] at hv
      exact h text v hv
  next => exact h

/-- The scripts of a table keep the state tidy. -/
theorem Table.tidy_evaluate (t : Table) {n : Nat} {stack : List Request} {r : Request}
    {s s' : State family} {o : Outcome family r} (h : t.rules.evaluate n stack r s = .ok o s')
    (hs : s.Tidy World.Tidy) : s'.Tidy World.Tidy := by
  refine Rules.tidy_evaluate (fun change w hchange hw => World.Tidy.of_stored hw (hchange w))
    (fun r => (t.scripted_body r).visits) (fun r out w hw => ?_)
    (fun r out w hr hw => World.Tidy.store hw hr out) t.lawful h hs
  · unfold Rules.told
    split
    · show World.Tidy (if r.isHooked then _ else w)
      split
      · exact hw.of_stored rfl
      · exact hw
    · exact hw

namespace Session

variable {table : Table} {s₀ s s' : Session} {steps : List Step}

/-! ## The requests that are called -/

/-- Every call is of a request that one of those asked for from outside leads to. -/
theorem AllCalls.exists_asked (hs : Able table s₀ s)
    (hsteps : ∀ st ∈ steps, ¬ st.IsPut ∧ ¬ st.IsEdit) {c : Call family}
    (hc : s.AllCalls steps c) :
    ∃ st ∈ steps, ∃ r ∈ st.asked, Relation.ReflTransGen table.Asks r c.request := by
  obtain ⟨before, st, later, s₁, rfl, hs₁, hc⟩ := hc
  obtain rfl := (hs.after? (fun st h => hsteps st (by simp [h])) hs₁).table_eq
  obtain ⟨r, hr, s₂, hw⟩ := hc.exists_root
  exact ⟨st, by simp, r, hr, hw.leads fun r => (s₁.table.scripted_body r).asks⟩

/-- Every request that is asked for from outside is called. -/
theorem exists_call (h : s.after? steps = some s') {st : Step} (hst : st ∈ steps) {r : Request}
    (hr : r ∈ st.asked) : ∃ c, s.AllCalls steps c ∧ c.request = r := by
  induction steps using List.reverseRecOn generalizing s' with
  | nil => cases hst
  | append_singleton steps st' ih =>
    obtain ⟨s₁, hs₁, hnext⟩ := after?_snoc.1 h
    simp only [allCalls_snoc_of_after? hs₁]
    rcases List.mem_append.1 hst with hst | hst
    · obtain ⟨c, hc, hcr⟩ := ih hs₁ hst
      exact ⟨c, .inl hc, hcr⟩
    · obtain rfl := List.mem_singleton.1 hst
      rcases next?_cases hnext with ⟨-, as, s₂, hall, -⟩ | ⟨hasked, -⟩ | ⟨hasked, -⟩
      · obtain ⟨c, hc, hcr⟩ := Rules.exists_callsIn hall hr
        exact ⟨c, .inr hc, hcr⟩
      · rw [hasked] at hr
        cases hr
      · rw [hasked] at hr
        cases hr

/-- Where no request leads to itself, the requests that are called are those that the ones asked
for from outside lead to. -/
theorem called_iff (hplain : table.IsPlain) (hacyclic : ∀ r, ¬ Relation.TransGen table.Asks r r)
    (hs : Able table s₀ s) (hnone : ∀ q, s.state.served? q = none)
    (hsteps : ∀ st ∈ steps, ¬ st.IsPut ∧ ¬ st.IsEdit) (h : s.after? steps = some s')
    (q : Request) : (∃ c, s.AllCalls steps c ∧ c.request = q) ↔
      ∃ st ∈ steps, ∃ r ∈ st.asked, Relation.ReflTransGen table.Asks r q := by
  constructor
  · rintro ⟨c, hc, rfl⟩
    exact hc.exists_asked hs hsteps
  · rintro ⟨st, hst, r, hr, hrq⟩
    obtain ⟨c, hc, rfl⟩ := exists_call h hst hr
    have hno : ∀ c, s.AllCalls steps c → c.request ∉ c.stack := fun c hc hmem =>
      hacyclic c.request ((hc.linked hs hsteps).leads hmem)
    -- a request that is called has all that it leads to called as well
    refine (completes_after? hplain hs hsteps h hno
      (D := fun q => ∀ p, Relation.ReflTransGen table.Asks q p →
        ∃ c, s.AllCalls steps c ∧ c.request = p) (fun c hc hD p hp => ?_)
      (fun q hq => absurd (hnone q) hq)).1 c hc q hrq
    rcases hp.cases_head with rfl | ⟨q, hq, hp⟩
    · exact ⟨c, hc, rfl⟩
    · exact hD q hq p hp

/-! ## What is left of the requests that are called -/

/-- A run of evaluations keeps a session settled, in what it records as well. -/
theorem settled_of_evaluations (hplain : table.IsPlain) (hs : Settled table True s)
    (hsteps : ∀ st ∈ steps, st.isEvaluation = true) (h : s.after? steps = some s') :
    Settled table True s' := by
  refine after?_settled hplain (fun st hst => Step.not_put_of_isEvaluation (hsteps st hst)) ?_ hs h
  rintro - before later s₁ rfl
  have hclear : (Step.command .clearCache).isEvaluation = true := hsteps _ (by simp)
  cases hclear

theorem AllCalls.agrees (hplain : table.IsPlain) (hs : Settled table True s)
    (hsteps : ∀ st ∈ steps, st.isEvaluation = true) {c : Call family} (hc : s.AllCalls steps c)
    {o : Outcome family c.request} {s₁ : State family} (ho : table.rules.answer c = .ok o s₁)
    (hg : Grounded table.Asks c.request) :
    ∃ t, Agrees table.rules True c.request c.state o s₁ t := by
  obtain ⟨before, st, later, s₂, rfl, hs₂, hc⟩ := hc
  exact (settled_of_evaluations hplain hs (fun st h => hsteps st (by simp [h])) hs₂).agrees hplain
    hc ho hg

/-- What a request has after each of its calls it has at the end of the session, if it had it at
first or was called. -/
theorem holds_after? {q : Request} {P : State family → Prop}
    (hP : ∀ s s', Untouched q s s' → P s → P s') (hs : Able table s₀ s)
    (hsteps : ∀ st ∈ steps, st.isEvaluation = true)
    (hcall : ∀ c, s.AllCalls steps c → c.request = q →
      ∀ o s₁, table.rules.answer c = .ok o s₁ → P s₁)
    (h : s.after? steps = some s')
    (hq : P s.state ∨ ∃ c, s.AllCalls steps c ∧ c.request = q) : P s'.state := by
  induction steps using List.reverseRecOn generalizing s' with
  | nil =>
    cases h
    refine hq.resolve_right ?_
    rintro ⟨c, hc, -⟩
    exact not_allCalls_nil c hc
  | append_singleton steps st ih =>
    obtain ⟨s₁, hs₁, hnext⟩ := after?_snoc.1 h
    simp only [allCalls_snoc_of_after? hs₁] at hcall hq
    have hsteps₁ : ∀ st ∈ steps, st.isEvaluation = true := fun st h => hsteps st (by simp [h])
    obtain rfl := (hs.after? (fun st h => Step.not_put_of_isEvaluation (hsteps₁ st h)) hs₁).table_eq
    have hfirst := ih hsteps₁ (fun c hc => hcall c (.inl hc)) hs₁
    obtain ⟨as, s₂, hall, rfl⟩ := evaluateAll_of_next? (hsteps st (by simp)) hnext
    refine hP s₂ _ (.still (still_quiet s₂)) ?_
    refine Rules.holds_evaluateAll hP s₁.table.lawful (fun c hc => hcall c (.inr hc)) hall ?_
    rcases hq with hq | ⟨c, hc | hc, hcq⟩
    · exact .inl (hfirst (.inl hq))
    · exact .inl (hfirst (.inr ⟨c, hc, hcq⟩))
    · exact .inr ⟨c, hc, hcq⟩

/-- A request that is called has its result, where it is remembered, and its references. -/
theorem exists_trace_of_called (hplain : table.IsPlain)
    (hacyclic : ∀ r, ¬ Relation.TransGen table.Asks r r) (hable : Able table s₀ s)
    (hs : Settled table True s) (hsteps : ∀ st ∈ steps, st.isEvaluation = true)
    (h : s.after? steps = some s') {q : Request}
    (hq : ∃ c, s.AllCalls steps c ∧ c.request = q) :
    ∃ t, table.rules.Traces q t ∧
      (family.Remembers q → s'.state.served? q = some t.result) ∧
      (family.opensScope q → ∀ ref, s'.state.Records q ref ↔ table.References q ref) := by
  have hevaluates : ∀ st ∈ steps, ¬ st.IsPut ∧ ¬ st.IsEdit := fun st hst =>
    Step.not_put_of_isEvaluation (hsteps st hst)
  have hgrounded : ∀ r, Grounded table.Asks r := fun r q _ => hacyclic q
  obtain ⟨t, ht⟩ : ∃ t, table.rules.Traces q t := by
    obtain ⟨c, hc, rfl⟩ := hq
    obtain ⟨o, s₁, ho⟩ := hc.exists_answer hable hevaluates h
    obtain ⟨t, ht⟩ := hc.agrees hplain hs hsteps ho (hgrounded _)
    exact ⟨t, ht.traces⟩
  refine ⟨t, ht, ?_⟩
  refine holds_after? (P := fun s => (family.Remembers q → s.served? q = some t.result) ∧
    (family.opensScope q → ∀ ref, s.Records q ref ↔ table.References q ref)) ?_ hable hsteps ?_ h
    (.inr hq)
  · rintro s s' hsame ⟨hserved, hrecords⟩
    refine ⟨fun hr => ?_, fun ho ref => ?_⟩
    · rw [State.served?_congr hsame.result hsame.fetch]
      exact hserved hr
    · rw [State.Records, hsame.recorded]
      exact hrecords ho ref
  · rintro c hc rfl o s₁ ho
    obtain ⟨t', ht'⟩ := hc.agrees hplain hs hsteps ho (hgrounded _)
    obtain rfl := ht.unique ht'.traces {}
    obtain rfl := ht'.outcome
    exact ⟨fun hr => Rules.served_of_evaluate table.lawful hr ho, fun hopens ref =>
      (ht'.recorded trivial hopens ref).trans (Table.references_of_traces hplain ht ref)⟩

theorem tidy_after? (hs : s.state.Tidy World.Tidy)
    (hsteps : ∀ st ∈ steps, st.isEvaluation = true) (h : s.after? steps = some s') :
    s'.state.Tidy World.Tidy := by
  refine after?_invariant (I := fun s => s.state.Tidy World.Tidy) ?_ h hs
  intro st hst s₁ s₁' hnext htidy
  obtain ⟨as, s₂, hall, rfl⟩ := evaluateAll_of_next? (hsteps st hst) hnext
  have htidy₂ : s₂.Tidy World.Tidy :=
    Rules.evaluateAll_invariant (fun _ _ _ _ ho h => s₁.table.tidy_evaluate ho h) hall htidy
  exact htidy₂.of_eq rfl rfl (htidy₂.world.of_stored rfl)

/-- A request has neither results nor a record. -/
structure Bare (q : Request) (s : State family) : Prop where
  result : s.result? q = none
  fetch : family.fetch q s.world = none
  recorded : s.recorded? q = none

theorem Bare.untouched {q : Request} {s s' : State family} (h : Bare q s)
    (hs : Untouched q s s') : Bare q s' :=
  ⟨hs.result.trans h.result, hs.fetch.trans h.fetch, hs.recorded.trans h.recorded⟩

/-- In a new engine nothing is kept. -/
theorem start_bare (table : Table) (options : Options) (register : Bool) :
    (start table options register).state.Tidy World.Tidy ∧
      ∀ q, Bare q (start table options register).state := by
  obtain ⟨registry, log, hstart⟩ := start_eq table options register
  rw [hstart]
  refine ⟨⟨fun q _ => rfl, fun q _ => rfl, fun text v hv => by cases hv⟩, fun q => ⟨rfl, ?_, rfl⟩⟩
  show (if q.isHooked then none else none) = none
  split <;> rfl

/-- The engine holds the results and the references of these requests, as plain recursion gives
them, and nothing else. -/
structure Holds (table : Table) (p : Request → Prop) (s : State family) : Prop where
  result : ∀ q v, s.result? q = some v ↔
    p q ∧ family.inEngine q ∧ ∃ t, table.rules.Traces q t ∧ t.result = v
  stored : ∀ text v, s.world.fetch text = some v ↔
    ∃ q, p q ∧ family.inStore q ∧ q.isHooked ∧ q.text = text ∧
      ∃ t, table.rules.Traces q t ∧ t.result = v
  records : ∀ q ref, s.Records q ref ↔ p q ∧ family.opensScope q ∧ table.References q ref
  filed : ∀ f ref, ref ∈ s.recorder.filed f ↔
    ∃ q, p q ∧ family.FiledUnder q f ∧ table.References q ref

section Accounts

variable {p : Request → Prop} {s : State family} (htidy : s.Tidy World.Tidy)
  (hout : ∀ q, ¬ p q → Bare q s)
  (hin : ∀ q, p q → ∃ t, table.rules.Traces q t ∧
    (family.Remembers q → s.served? q = some t.result) ∧
    (family.opensScope q → ∀ ref, s.Records q ref ↔ table.References q ref))

include htidy hout hin

theorem result_iff (q : Request) (v : Int64) : s.result? q = some v ↔
    p q ∧ family.inEngine q ∧ ∃ t, table.rules.Traces q t ∧ t.result = v := by
  constructor
  · intro hv
    have hq : p q := by
      by_contra hq
      rw [(hout q hq).result] at hv
      cases hv
    have he : family.inEngine q = true := by
      rw [← Bool.not_eq_false]
      intro he
      rw [htidy.result q he] at hv
      cases hv
    obtain ⟨t, ht, hserved, -⟩ := hin q hq
    have hresult := hserved (.inl he)
    rw [State.served?, if_pos he, hv] at hresult
    exact ⟨hq, he, t, ht, (Option.some.inj hresult).symm⟩
  · rintro ⟨hq, he, t, ht, rfl⟩
    obtain ⟨t', ht', hserved, -⟩ := hin q hq
    obtain rfl := ht.unique ht' {}
    have hresult := hserved (.inl he)
    rw [State.served?, if_pos he] at hresult
    exact hresult

theorem stored_iff (text : String) (v : Int64) : s.world.fetch text = some v ↔
    ∃ q, p q ∧ family.inStore q ∧ q.isHooked ∧ q.text = text ∧
      ∃ t, table.rules.Traces q t ∧ t.result = v := by
  constructor
  · intro hv
    obtain ⟨q, hst, hh, rfl⟩ := htidy.world text v hv
    have hq : p q := by
      by_contra hq
      have hnone := (hout q hq).fetch
      rw [fetch_of_hooked hh, hv] at hnone
      cases hnone
    obtain ⟨t, ht, hserved, -⟩ := hin q hq
    have hresult := hserved (remembers_of_inStore hst hh)
    rw [served?_of_hooked hst hh, hv] at hresult
    exact ⟨q, hq, hst, hh, rfl, t, ht, (Option.some.inj hresult).symm⟩
  · rintro ⟨q, hq, hst, hh, rfl, t, ht, rfl⟩
    obtain ⟨t', ht', hserved, -⟩ := hin q hq
    obtain rfl := ht.unique ht' {}
    rw [← served?_of_hooked hst hh]
    exact hserved (remembers_of_inStore hst hh)

theorem records_iff (q : Request) (ref : Reference) : s.Records q ref ↔
    p q ∧ family.opensScope q ∧ table.References q ref := by
  constructor
  · rintro ⟨scope, hscope, hmem⟩
    have hq : p q := by
      by_contra hq
      rw [(hout q hq).recorded] at hscope
      cases hscope
    have ho : family.opensScope q = true := by
      rw [← Bool.not_eq_false]
      intro ho
      rw [htidy.recorded q ho] at hscope
      cases hscope
    obtain ⟨t, -, -, hrecords⟩ := hin q hq
    exact ⟨hq, ho, (hrecords ho ref).1 ⟨scope, hscope, hmem⟩⟩
  · rintro ⟨hq, ho, href⟩
    obtain ⟨t, -, -, hrecords⟩ := hin q hq
    exact (hrecords ho ref).2 href

end Accounts

/-- A new engine that evaluates requests comes to hold those they lead to. -/
theorem holds_of_evaluations (hplain : table.IsPlain)
    (hacyclic : ∀ r, ¬ Relation.TransGen table.Asks r r) (options : Options) (register : Bool)
    (hsteps : ∀ st ∈ steps, st.isEvaluation = true)
    (h : (start table options register).after? steps = some s) :
    Holds table (fun q => ∃ st ∈ steps, ∃ r ∈ st.asked, Relation.ReflTransGen table.Asks r q)
      s.state := by
  have hable := start_able table options register
  have hsettled : Settled table True (start table options register) :=
    start_settled table options register
  obtain ⟨hstart, hbare⟩ := start_bare table options register
  have htidy := tidy_after? hstart hsteps h
  simp only [← called_iff hplain hacyclic hable (start_served? table options register)
    (fun st hst => Step.not_put_of_isEvaluation (hsteps st hst)) h]
  have hin : ∀ q, (∃ c, (start table options register).AllCalls steps c ∧ c.request = q) → _ :=
    fun q => exists_trace_of_called hplain hacyclic hable hsettled hsteps h
  have hout : ∀ q, (¬ ∃ c, (start table options register).AllCalls steps c ∧ c.request = q) →
      Bare q s.state := fun q hq =>
    holds_after? (P := Bare q) (fun _ _ hs h => h.untouched hs) hable hsteps
      (fun c hc hcq => absurd ⟨c, hc, hcq⟩ hq) h (.inl (hbare q))
  refine ⟨result_iff htidy hout hin, stored_iff htidy hout hin, records_iff htidy hout hin,
    fun f ref => ?_⟩
  have hempty : ∀ f, (start table options register).state.recorder.filed f = [] := by
    obtain ⟨registry, log, heq⟩ := start_eq table options register
    rw [heq]
    exact fun _ => rfl
  rw [filed_after? hplain hempty (fun before later s₁ heq hs₁ => ?_) h
    fun c _ _ q _ => hacyclic q]
  · constructor
    · rintro ⟨c, hc, hf, href⟩
      exact ⟨c.request, ⟨c, hc, rfl⟩, hf, href⟩
    · rintro ⟨q, ⟨c, hc, rfl⟩, hf, href⟩
      exact ⟨c, hc, hf, href⟩
  · exact settled_of_evaluations hplain hsettled (fun st hst => hsteps st (by simp [heq, hst])) hs₁

end Session

/-- Where no request leads to itself, new engines that are asked for the same requests, in any order
and any number of times, come to hold the same results, the same references for each request and the
same references under each file. -/
theorem order_does_not_matter (table : Table) (hplain : table.IsPlain)
    (hacyclic : ∀ r, ¬ Relation.TransGen table.Asks r r) (options options' : Options)
    (register : Bool) (steps steps' : List Step)
    (hsteps : ∀ st ∈ steps, st.isEvaluation = true)
    (hsteps' : ∀ st ∈ steps', st.isEvaluation = true)
    (hsame : ∀ r, (∃ st ∈ steps, r ∈ st.asked) ↔ ∃ st ∈ steps', r ∈ st.asked)
    (hknown : ∀ st ∈ steps, ∀ r ∈ st.asked, ∀ q, Relation.ReflTransGen table.Asks r q →
      (Session.start table options register).state.registry.knows q.kind) :
    ∃ s s', (Session.start table options register).after? steps = some s ∧
      (Session.start table options' register).after? steps' = some s' ∧
      (∀ r, s.state.result? r = s'.state.result? r) ∧
      (∀ text, s.state.world.fetch text = s'.state.world.fetch text) ∧
      (∀ r ref, s.state.Records r ref ↔ s'.state.Records r ref) ∧
      ∀ f ref, ref ∈ s.state.recorder.filed f ↔ ref ∈ s'.state.recorder.filed f := by
  have hknown' : ∀ st ∈ steps', ∀ r ∈ st.asked, ∀ q, Relation.ReflTransGen table.Asks r q →
      (Session.start table options' register).state.registry.knows q.kind := by
    intro st' hst' r hr q hq
    obtain ⟨st, hst, hr⟩ := (hsame r).2 ⟨st', hst', hr⟩
    rw [← (Session.start_alike table options options' register).state.registry]
    exact hknown st hst r hr q hq
  obtain ⟨s, hs, -⟩ := (Session.start_able table options register).exists_after?
    (fun st hst => Step.not_put_of_isEvaluation (hsteps st hst)) hknown
  obtain ⟨s', hs', -⟩ := (Session.start_able table options' register).exists_after?
    (fun st hst => Step.not_put_of_isEvaluation (hsteps' st hst)) hknown'
  have hleft := Session.holds_of_evaluations hplain hacyclic options register hsteps hs
  have hright := Session.holds_of_evaluations hplain hacyclic options' register hsteps' hs'
  -- both hold what the same requests lead to
  have hreach : ∀ q, (∃ st ∈ steps, ∃ r ∈ st.asked, Relation.ReflTransGen table.Asks r q) ↔
      ∃ st ∈ steps', ∃ r ∈ st.asked, Relation.ReflTransGen table.Asks r q := by
    intro q
    constructor
    · rintro ⟨st, hst, r, hr, hq⟩
      obtain ⟨st', hst', hr'⟩ := (hsame r).1 ⟨st, hst, hr⟩
      exact ⟨st', hst', r, hr', hq⟩
    · rintro ⟨st', hst', r, hr', hq⟩
      obtain ⟨st, hst, hr⟩ := (hsame r).2 ⟨st', hst', hr'⟩
      exact ⟨st, hst, r, hr, hq⟩
  simp only [← hreach] at hright
  refine ⟨s, s', hs, hs', fun r => ?_, fun text => ?_, fun r ref => ?_, fun f ref => ?_⟩
  · exact Option.ext fun v => (hleft.result r v).trans (hright.result r v).symm
  · exact Option.ext fun v => (hleft.stored text v).trans (hright.stored text v).symm
  · exact (hleft.records r ref).trans (hright.records r ref).symm
  · exact (hleft.filed f ref).trans (hright.filed f ref).symm

/-- A result that is computed every time asks for a source and for a result that is stored outside
the engine, and so does the source for the stored one. -/
def braid : Table :=
  [((.keyed .external, "e"), { actions := [.add 5, .record (.topLevel "x")] }),
   ((.filed .source, "a"), { actions := [.evaluate (.keyed .external "e") 0, .add 1] }),
   ((.keyed .uncached, "u"),
    { actions := [.need (.filed .source ⟨1⟩ "a"), .batch [.keyed .external "e"]] })]

/-- The requests of the braid ask only for requests of lower ranks. -/
theorem not_transGen_braid (r : Request) : ¬ Relation.TransGen braid.Asks r r := by
  let rank : Kind → Nat := fun k =>
    if k = .keyed .uncached then 2 else if k = .filed .source then 1 else 0
  refine (grounded_of_rank (P := fun _ => True) (fun q => rank q.kind) (fun p _ q hq => ?_)
    trivial).2 r .refl
  refine ⟨trivial, ?_⟩
  unfold Table.Asks Table.mentions at hq
  cases hf : braid.find? p with
  | none => simp [hf] at hq
  | some e =>
    have hmem := Table.mem_of_find? hf
    rw [hf] at hq
    simp only [braid, List.mem_cons, Prod.mk.injEq, List.not_mem_nil, or_false] at hmem
    rcases hmem with ⟨⟨hk, -⟩, rfl⟩ | ⟨⟨hk, -⟩, rfl⟩ | ⟨⟨hk, -⟩, rfl⟩
    · simp [Action.requestsOf, Action.requests] at hq
    · have hq : q = .keyed .external "e" := by simpa [Action.requestsOf, Action.requests] using hq
      rw [hk, hq]
      decide
    · have hq : q = .filed .source ⟨1⟩ "a" ∨ q = .keyed .external "e" := by
        simpa [Action.requestsOf, Action.requests] using hq
      rw [hk]
      rcases hq with rfl | rfl <;> decide

/-- Asking for the uncached result of the braid before the source or after it, and once or twice. -/
theorem order_does_not_matter_braid :
    ∃ s s', (Session.start braid {} true).after?
        [.command (.evaluate [.keyed .uncached "u", .filed .source ⟨2⟩ "a"])] = some s ∧
      (Session.start braid { collectStatistics := true } true).after?
        [evaluateSource 2, .evaluateD (.keyed .uncached "u") 0, evaluateSource 2] = some s' ∧
      (∀ r, s.state.result? r = s'.state.result? r) ∧
      (∀ text, s.state.world.fetch text = s'.state.world.fetch text) ∧
      (∀ r ref, s.state.Records r ref ↔ s'.state.Records r ref) ∧
      ∀ f ref, ref ∈ s.state.recorder.filed f ↔ ref ∈ s'.state.recorder.filed f := by
  refine order_does_not_matter braid (by simp [Table.IsPlain, braid, Action.IsPlain])
    not_transGen_braid {} { collectStatistics := true } true _ _ (by simp [Step.isEvaluation])
    (by simp [Step.isEvaluation, evaluateSource]) (fun r => ?_)
    (Session.known_of_requests (by decide +kernel) (by decide +kernel))
  simp [Step.asked, evaluateSource, or_comm]

end Demand.Script
