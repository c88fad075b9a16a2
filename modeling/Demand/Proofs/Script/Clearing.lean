import Demand.Proofs.Script.Session

/-!
# Clearing and the references of stored results

A result in a store outside the engine is served whatever is cleared. As long as the whole cache is
not cleared, whoever asks for it is written the references that were recorded when it was computed.
Clearing the whole cache forgets them: the result is served on, without references
(`references_of_stored`).
-/

namespace Demand.Script

namespace Session

/-- The request has a result in the store outside the engine, and this is recorded for it. -/
structure Stored (r : Request) (refs : Option Scope) (s : State family) : Prop where
  kept : Kept s
  known : s.registry.knows r.kind
  served : (s.served? r).isSome
  recorded : s.recorded? r = refs

variable {r : Request} {refs : Option Scope} {s : State family}

theorem Stored.persists {s' : State family} (h : Stored r refs s) (hp : Persists [] s s') :
    Stored r refs s' := by
  obtain ⟨v, hv⟩ := Option.isSome_iff_exists.1 h.served
  refine ⟨hp.recorded_owned h.kept, by rw [hp.registry]; exact h.known, ?_, ?_⟩
  · rw [hp.served r v hv]
    rfl
  · rw [hp.recorded r v hv]
    exact h.recorded

/-- A command keeps the records of a stored result, unless it clears the cache. -/
theorem Stored.effect (hr : family.inStore r) (h : Stored r refs s) {c : Command family}
    {s' : State family} (he : c.Effect s s') :
    Stored r refs s' ∧ ¬ c.IsClearCache ∨ Stored r none s' ∧ c.IsClearCache := by
  by_cases hc : c.IsClearCache
  · exact .inr ⟨⟨he.recorded_owned h.kept, he.knows _ h.known, he.stored r hr h.served,
      (he.cleared hc r).1⟩, hc⟩
  · refine .inl ⟨⟨he.recorded_owned h.kept, he.knows _ h.known, he.stored r hr h.served, ?_⟩, hc⟩
    rw [he.recorded_stored hc r hr]
    exact h.recorded

theorem Stored.evaluate {table : Table} {n : Nat} {q : Request} {o : Outcome family q}
    {s' : State family} (h : Stored r refs s) (ho : table.rules.evaluate n [] q s = .ok o s') :
    Stored r refs s' :=
  h.persists (Rules.answers_of_evaluate table.lawful ho).toPersists

/-- A step keeps the records of a stored result, unless it clears the cache. -/
theorem Stored.next? (hr : family.inStore r) {s s' : Session} {st : Step}
    (h : Stored r refs s.state) (hs : s.next? st = some s') :
    st ≠ .command .clearCache ∧ Stored r refs s'.state ∨
      st = .command .clearCache ∧ Stored r none s'.state := by
  have hquiet : ∀ refs s₁, Stored r refs s₁ → Stored r refs (quiet s₁) :=
    fun refs s₁ h => h.persists (still_quiet s₁).frame.toPersists
  rcases next?_cases hs with ⟨hev, as, s₁, hall, rfl⟩ | ⟨-, c, s₁, rfl, he, rfl⟩ | ⟨-, hst, rfl⟩
  · refine .inl ⟨?_, hquiet refs s₁ ?_⟩
    · rintro rfl
      cases hev
    · exact Rules.evaluateAll_invariant (fun _ _ _ _ ho h => h.evaluate ho) hall h
  · rcases h.effect hr he with ⟨h₁, hc⟩ | ⟨h₁, hc⟩
    · refine .inl ⟨?_, hquiet refs s₁ h₁⟩
      rintro ⟨⟩
      exact hc trivial
    · refine .inr ⟨?_, hquiet none s₁ h₁⟩
      cases c with
      | clearCache => rfl
      | _ => exact hc.elim
  · exact .inl ⟨hst _, hquiet refs s.state h⟩

theorem Stored.after? (hr : family.inStore r) {s s' : Session} {steps : List Step}
    (h : Stored r refs s.state) (hs : s.after? steps = some s') :
    .command .clearCache ∉ steps ∧ Stored r refs s'.state ∨
      .command .clearCache ∈ steps ∧ Stored r none s'.state := by
  induction steps using List.reverseRecOn generalizing s' with
  | nil =>
    cases hs
    exact .inl ⟨by simp, h⟩
  | append_singleton steps st ih =>
    obtain ⟨s₁, hs₁, hnext⟩ := after?_snoc.1 hs
    rcases ih hs₁ with ⟨hnot, h₁⟩ | ⟨hmem, h₁⟩
    · rcases h₁.next? hr hnext with ⟨hst, h₂⟩ | ⟨rfl, h₂⟩
      · exact .inl ⟨by simp [hnot, hst.symm], h₂⟩
      · exact .inr ⟨by simp, h₂⟩
    · refine .inr ⟨by simp [hmem], ?_⟩
      rcases h₁.next? hr hnext with ⟨-, h₂⟩ | ⟨-, h₂⟩ <;> exact h₂

/-- At every call the result is still there, so that the request is not active. -/
theorem Stored.calls {s : Session} (h : Stored r refs s.state) {st : Step} {c : Call family}
    (hc : s.Calls st c) : Stored r refs c.state ∧ r ∉ c.stack ∧ 0 < c.fuel := by
  refine Rules.CallsIn.of_invariant (I := Stored r refs)
    (P := fun c => Stored r refs c.state ∧ r ∉ c.stack ∧ 0 < c.fuel)
    (fun _ _ _ _ ho h => h.evaluate ho) (fun q s₀ c h hc => ?_) hc h
  have hstands := hc.stands s.table.lawful
  have hbounded := (bounded s.table.lawful (fun q => (s.table.scripted_body q).asks)
    s.table.requests (fun _ _ => Table.Asks.mem_requests) fun _ => True).within s.table.lawful hc
    ⟨bounded_start s.table q, .inl fun _ => trivial⟩
  have hstored := h.persists hstands.persists
  refine ⟨hstored, fun hmem => ?_, hbounded.1.pos fun _ _ => Table.Asks.mem_requests⟩
  have hserved := hstored.served
  rw [hstands.unserved r hmem] at hserved
  cases hserved

/-- A call of a stored result is served, and writes what is recorded for it. -/
theorem Stored.serves (hr : family.inStore r) {s : Session} (h : Stored r refs s.state) {st : Step}
    {c : Call family} (hc : s.Calls st c) (hreq : c.request = r) :
    ∃ v s', c.state.served? c.request = some v ∧ s.table.rules.answer c = .ok (.ok v) s' ∧
      Grown (fun ref => ref ∈ refs.getD [] ∨ s.table.Sinks c.request ref) c.state.recorder.scopes
        s'.recorder.scopes := by
  subst hreq
  obtain ⟨hstored, hstack, hfuel⟩ := h.calls hc
  obtain ⟨n, stack, q, s₁⟩ := c
  obtain ⟨v, hv⟩ := Option.isSome_iff_exists.1 hstored.served
  obtain ⟨k, rfl⟩ : ∃ k, n = k + 1 := ⟨n - 1, by dsimp only at hfuel; omega⟩
  have hlookup : s₁.lookup q = .ok (some v) := by
    rw [State.lookup_of_inStore hr]
    exact congrArg Except.ok hv
  have hget := Tables.get?_eq hstored.kept Registry.knows_injective hstored.known
  obtain ⟨s', he, hs⟩ := @Rules.exists_serves _ s.table.rules s₁ k _ _ _ hstack hlookup ⟨_, hget⟩
  refine ⟨v, s', hv, he, hs.scopes.congr fun ref => or_congr_left ?_⟩
  have hrec : s₁.recorded? q = refs := hstored.recorded
  rw [State.Records, hrec]
  cases refs <;> simp

end Session

/-- What a call of a stored result adds to the innermost scope: the references that were recorded
for it, unless the cache was cleared since, and those it writes as a sink. -/
theorem references_of_stored (table : Table) (options : Options) (register : Bool)
    (steps : List Step) (s : Session)
    (hs : (Session.start table options register).after? steps = some s) (r : Request)
    (hr : family.inStore r) (hserved : (s.state.served? r).isSome) (refs : Scope)
    (hrefs : s.state.recorded? r = some refs) (later : List Step) (s' : Session)
    (hs' : s.after? later = some s') (st : Step) (c : Call family) (hc : s'.Calls st c)
    (hreq : c.request = r) (scope : Scope) (outer : List Scope)
    (hscope : c.state.recorder.scopes = scope :: outer) :
    ∃ v e scope', c.state.served? c.request = some v ∧
      s'.table.rules.answer c = .ok (.ok v) e ∧ e.recorder.scopes = scope' :: outer ∧
      ∀ ref, ref ∈ scope' ↔ ref ∈ scope ∨
        (ref ∈ refs ∧ .command .clearCache ∉ later) ∨ s'.table.Sinks r ref := by
  have hkept := Session.after?_kept hs (Session.start_kept table options register)
  have hstored : Session.Stored r (some refs) s.state :=
    ⟨hkept, Tables.known_of_value? hkept hrefs, hserved, hrefs⟩
  rcases hstored.after? hr hs' with ⟨hnot, h⟩ | ⟨hmem, h⟩
  · obtain ⟨v, e, hv, he, hgrown⟩ := h.serves hr hc hreq
    rw [hscope] at hgrown
    obtain ⟨scope', hscope', hmem⟩ := hgrown.exists_of_cons
    refine ⟨v, e, scope', hv, he, hscope', fun ref => ?_⟩
    rw [hmem, hreq]
    simp [hnot]
  · obtain ⟨v, e, hv, he, hgrown⟩ := h.serves hr hc hreq
    rw [hscope] at hgrown
    obtain ⟨scope', hscope', hmem'⟩ := hgrown.exists_of_cons
    refine ⟨v, e, scope', hv, he, hscope', fun ref => ?_⟩
    rw [hmem', hreq]
    simp [hmem]

/-- Dropping the stored result of the sample leaves it and its references where they are. -/
theorem references_of_stored_sample :
    ∃ s s' c v e scope', (Session.start sample {} true).after? sampleSteps = some s ∧
      s.after? [.command (.clear (.keyed .external "e"))] = some s' ∧
      s'.Calls (evaluateSource 2) c ∧ c.request = .keyed .external "e" ∧
      s'.table.rules.answer c = .ok (.ok v) e ∧ e.recorder.scopes = [scope'] ∧
      .topLevel "x" ∈ scope' := by
  have hrun : ((Session.start sample {} true).after? sampleSteps).any (fun s =>
      decide (s.state.recorded? (.keyed .external "e") = some [.topLevel "x"] ∧
        (s.state.served? (.keyed .external "e")).isSome) &&
      (s.after? [.command (.clear (.keyed .external "e"))]).any fun s' =>
        decide (s'.state.registry.knows (.filed .source) ∧
          s'.state.served? (.filed .source ⟨2⟩ "a") = none ∧
          s'.state.recorder.scopes = [])) = true := by
    decide +kernel
  obtain ⟨s, hs, hstate⟩ := (Option.any_eq_true _ _).1 hrun
  obtain ⟨hfirst, hlater⟩ := Bool.and_eq_true_iff.1 hstate
  obtain ⟨s', hs', hstate'⟩ := (Option.any_eq_true _ _).1 hlater
  obtain ⟨hrefs, hserved⟩ := of_decide_eq_true hfirst
  obtain ⟨hsource, hnone, hscopes⟩ := of_decide_eq_true hstate'
  have hsettled := Session.after?_settled isPlain_sample sampleSteps_evaluate False.elim
    (Session.start_settled sample {} true) hs
  have hsettled' := Session.after?_settled isPlain_sample (by simp [Step.IsPut, Step.IsEdit,
    Command.IsPut]) False.elim hsettled hs'
  obtain ⟨c, hc, hreq, hscope⟩ := @Session.exists_first_call s' (.filed .source ⟨2⟩ "a") _ _ _ _
    (by rw [hsettled'.table_eq]; rfl) rfl rfl hsettled'.owned hsource hnone
  rw [hscopes] at hscope
  obtain ⟨v, e, scope', -, he, hscope', hmem⟩ :=
    references_of_stored sample {} true sampleSteps s hs (.keyed .external "e") rfl hserved
      [.topLevel "x"] hrefs _ s' hs' (evaluateSource 2) c hc hreq [] [] hscope
  exact ⟨s, s', c, v, e, scope', hs, hs', hc, hreq, he, hscope', (hmem _).2 (by simp)⟩

/-- A source that is evaluated after the cache was cleared files none of the references that one
evaluated before it files, though the stored result that both ask for is the same. -/
theorem references_lost_by_clearCache :
    ((Session.start sample {} true).after?
      [evaluateSource 1, .command .clearCache, evaluateSource 2]).map
        (fun s => (s.state.recorder.filed ⟨1⟩, s.state.recorder.filed ⟨2⟩)) =
      some ([.topLevel "x"], []) := by
  decide +kernel

end Demand.Script
