import Demand.Proofs.Engine.Edges
import Demand.Proofs.Script.Completion

/-!
# Cycles of the dependency graph

The edges of the graph are those of the calls of the run (`Session.edges_after?`), whatever is
served, computed again or dropped in between. A call that finds a cycle closes one in the graph. The
other way round, if no call finds a cycle, every request that was called leads to none, so that the
edges of different evaluations cannot be put together to a cycle either (`cyclic_iff_error`).
-/

namespace Demand.Script

namespace Session

variable {table : Table} {s₀ s s' : Session} {st : Step} {steps : List Step} {x y : Request}

/-! ## The edges of a session -/

/-- A step draws the edges of its calls. -/
theorem edges_next? (hs : s.state.Draws) (h : s.next? st = some s') :
    s'.state.Draws ∧
      (s'.state.graph.Edge x y ↔ s.state.graph.Edge x y ∨ ∃ c, s.Calls st c ∧ c.Draws x y) := by
  rcases next?_cases h with ⟨-, as, s₁, hall, rfl⟩ | ⟨hasked, c, s₁, -, he, rfl⟩ | ⟨hasked, -, rfl⟩
  · obtain ⟨hs₁, hedges⟩ := Rules.edges_evaluateAll hs hall
    exact ⟨hs₁.congr rfl rfl, hedges⟩
  · refine ⟨hs.congr he.options he.graph, ?_⟩
    show s₁.graph.Edge x y ↔ _
    rw [he.graph]
    simp [not_calls_of_asked hasked]
  · refine ⟨hs.congr rfl rfl, ?_⟩
    show s.state.graph.Edge x y ↔ _
    simp [not_calls_of_asked hasked]

/-- A run draws the edges of its calls. -/
theorem edges_after? (hs : s.state.Draws) (h : s.after? steps = some s') :
    s'.state.Draws ∧ (s'.state.graph.Edge x y ↔
      s.state.graph.Edge x y ∨ ∃ c, s.AllCalls steps c ∧ c.Draws x y) := by
  induction steps using List.reverseRecOn generalizing s' with
  | nil =>
    cases h
    exact ⟨hs, by simp [not_allCalls_nil]⟩
  | append_singleton steps st ih =>
    obtain ⟨s₁, hs₁, hnext⟩ := after?_snoc.1 h
    obtain ⟨hdraws, hedges⟩ := ih hs₁
    obtain ⟨hdraws', hedges'⟩ := edges_next? hdraws hnext
    refine ⟨hdraws', ?_⟩
    rw [hedges', hedges]
    simp only [allCalls_snoc_of_after? hs₁, or_and_right, exists_or, or_assoc]

/-- A new engine has drawn nothing. -/
theorem start_draws (table : Table) {options : Options} (hgraph : options.buildGraph = true)
    (register : Bool) : (start table options register).state.Draws ∧
      ∀ x y, ¬ (start table options register).state.graph.Edge x y := by
  obtain ⟨registry, log, hstart⟩ := start_eq table options register
  rw [hstart]
  refine ⟨⟨hgraph, Graph.sound_empty⟩, ?_⟩
  rintro x y ⟨i, j, hi, -⟩
  simp [Graph.request?] at hi

/-! ## The calls of a session -/

/-- A run that goes on has all its calls answered. -/
theorem AllCalls.exists_answer (hs : Able table s₀ s)
    (hsteps : ∀ st ∈ steps, ¬ st.IsPut ∧ ¬ st.IsEdit) (h : s.after? steps = some s')
    {c : Call family} (hc : s.AllCalls steps c) : ∃ o s₁, table.rules.answer c = .ok o s₁ := by
  induction steps using List.reverseRecOn generalizing s' with
  | nil => exact absurd hc (not_allCalls_nil c)
  | append_singleton steps st ih =>
    obtain ⟨s₁, hs₁, hnext⟩ := after?_snoc.1 h
    have hsteps₁ : ∀ st ∈ steps, ¬ st.IsPut ∧ ¬ st.IsEdit := fun st h => hsteps st (by simp [h])
    rcases (allCalls_snoc_of_after? hs₁).1 hc with hc | hc
    · exact ih hsteps₁ hs₁ hc
    · obtain rfl := (hs.after? hsteps₁ hs₁).table_eq
      rcases next?_cases hnext with ⟨-, as, s₂, hall, -⟩ | ⟨hasked, -⟩ | ⟨hasked, -⟩
      · exact Rules.CallsIn.exists_answer hall hc
      · exact absurd hc (not_calls_of_asked hasked c)
      · exact absurd hc (not_calls_of_asked hasked c)

/-- Whenever a request is asked for, the edges between the active requests are drawn by the run. -/
theorem AllCalls.drawn {c : Call family} (hc : s.AllCalls steps c) :
    Linked (fun x y => ∃ c', s.AllCalls steps c' ∧ c'.Draws x y) c.stack c.request := by
  obtain ⟨before, st, later, s₁, rfl, hs₁, hc⟩ := hc
  refine (Rules.CallsIn.drawn hc).mono ?_
  rintro x y ⟨c', hc', hd⟩
  exact ⟨c', ⟨before, st, later, s₁, rfl, hs₁, hc'⟩, hd⟩

/-- A request that is asked for is mentioned by the innermost active one. -/
theorem AllCalls.linked (hs : Able table s₀ s) (hsteps : ∀ st ∈ steps, ¬ st.IsPut ∧ ¬ st.IsEdit)
    {c : Call family} (hc : s.AllCalls steps c) : Linked table.Asks c.stack c.request := by
  obtain ⟨before, st, later, s₁, rfl, hs₁, hc⟩ := hc
  obtain rfl := (hs.after? (fun st h => hsteps st (by simp [h])) hs₁).table_eq
  refine Rules.CallsIn.of_invariant (I := fun _ => True)
    (P := fun c => Linked s₁.table.Asks c.stack c.request) (fun _ _ _ _ _ _ => trivial)
    (fun r s c _ hw => ?_) hc trivial
  exact hw.linked (fun r => (s₁.table.scripted_body r).asks) (.start r)

/-- An edge goes from a request to one that its script mentions. -/
theorem AllCalls.asks_of_draws (hs : Able table s₀ s)
    (hsteps : ∀ st ∈ steps, ¬ st.IsPut ∧ ¬ st.IsEdit) {c : Call family}
    (hc : s.AllCalls steps c) (h : c.Draws x y) : table.Asks x y := by
  obtain ⟨hhead, rfl⟩ := h
  have hlinked := hc.linked hs hsteps
  cases hstack : c.stack with
  | nil => simp [hstack] at hhead
  | cons p rest =>
    rw [hstack] at hhead hlinked
    cases hhead
    exact (List.isChain_cons_cons.1 hlinked).1

/-- If no call finds a cycle, the requests that are called lead to none. -/
theorem grounded_of_no_error (hplain : table.IsPlain) (hs : Able table s₀ s)
    (hsteps : ∀ st ∈ steps, ¬ st.IsPut ∧ ¬ st.IsEdit) (h : s.after? steps = some s')
    (hnone : ∀ q, s.state.served? q = none)
    (herror : ¬ ∃ c e s₁, s.AllCalls steps c ∧ table.rules.answer c = .ok (.error e) s₁)
    {c : Call family} (hc : s.AllCalls steps c) : Grounded table.Asks c.request := by
  have hno : ∀ c, s.AllCalls steps c → c.request ∉ c.stack := by
    intro c hc hmem
    obtain ⟨o, s₁, ho⟩ := hc.exists_answer hs hsteps h
    obtain ⟨e, rfl⟩ := (Rules.answers_of_evaluate table.lawful ho).error_iff.2 hmem
    exact herror ⟨c, e, s₁, hc, ho⟩
  exact (completes_after? hplain hs hsteps h hno (fun c _ h => .of_forall h)
    fun q hq => absurd (hnone q) hq).1 c hc

end Session

/-- A run of a session with a graph. Its graph has a cycle just if a call found one, if the scripts
look at nothing but the answers they get. Whatever the scripts, the active requests from the one
that was asked for again to the innermost one, and back, are a cycle of the graph. And the run goes
on, if all computations that it needs are known. -/
theorem cyclic_iff_error (table : Table) (options : Options) (hgraph : options.buildGraph = true)
    (register : Bool) (steps : List Step) (hsteps : ∀ st ∈ steps, ¬ st.IsPut ∧ ¬ st.IsEdit) :
    ((∀ st ∈ steps, ∀ r ∈ st.asked, ∀ q, Relation.ReflTransGen table.Asks r q →
        (Session.start table options register).state.registry.knows q.kind) →
      ∃ s, (Session.start table options register).after? steps = some s) ∧
    ∀ s, (Session.start table options register).after? steps = some s →
      (table.IsPlain →
        ((∃ r, Relation.TransGen s.state.graph.Edge r r) ↔
          ∃ c e s', (Session.start table options register).AllCalls steps c ∧
            table.rules.answer c = .ok (.error e) s')) ∧
      ∀ c e s', (Session.start table options register).AllCalls steps c →
        table.rules.answer c = .ok (.error e) s' →
        e.request = c.request ∧ e.request ∈ c.stack ∧
          (e.request :: (c.stack.takeWhile fun x => x ≠ e.request).reverse ++
            [e.request]).IsChain s.state.graph.Edge := by
  have hable := Session.start_able table options register
  obtain ⟨hdraws, hnone⟩ := Session.start_draws table hgraph register
  refine ⟨fun hknown => ?_, fun s hs => ?_⟩
  · obtain ⟨s, hs, -⟩ := hable.exists_after? hsteps hknown
    exact ⟨s, hs⟩
  have hedge : ∀ x y, s.state.graph.Edge x y ↔
      ∃ c, (Session.start table options register).AllCalls steps c ∧ c.Draws x y := by
    intro x y
    rw [(Session.edges_after? hdraws hs).2]
    simp [hnone]
  have hlinked : ∀ c, (Session.start table options register).AllCalls steps c →
      Linked s.state.graph.Edge c.stack c.request := fun c hc =>
    hc.drawn.mono fun x y => (hedge x y).2
  refine ⟨fun hplain => ⟨?_, ?_⟩, ?_⟩
  · rintro ⟨r, hcycle⟩
    by_contra herror
    have hgrounded : ∀ c, (Session.start table options register).AllCalls steps c →
        Grounded table.Asks c.request := fun c =>
      Session.grounded_of_no_error hplain hable hsteps hs
        (Session.start_served? table options register) herror
    have hasks : ∀ x y, s.state.graph.Edge x y → table.Asks x y := by
      intro x y hxy
      obtain ⟨c, hc, hdraws⟩ := (hedge x y).1 hxy
      exact hc.asks_of_draws hable hsteps hdraws
    -- the last edge of the cycle goes to a request that was called
    obtain ⟨x, -, hxr⟩ := Relation.TransGen.tail'_iff.1 hcycle
    obtain ⟨c, hc, -, rfl⟩ := (hedge x r).1 hxr
    exact hgrounded c hc c.request .refl (Relation.TransGen.mono hasks _ _ hcycle)
  · rintro ⟨c, e, s', hc, he⟩
    exact ⟨c.request, (hlinked c hc).leads (Rules.mem_stack_of_error he).1⟩
  · intro c e s' hc he
    obtain ⟨hmem, hrequest⟩ := Rules.mem_stack_of_error he
    rw [hrequest]
    exact ⟨rfl, hmem, (hlinked c hc).isChain_above hmem⟩

/-- The edge that a request of the sample draws to itself shows that asking for it failed. -/
theorem cyclic_iff_error_loop :
    ∃ s c e s', (Session.start sample { buildGraph := true } true).after? sampleSteps = some s ∧
      (Session.start sample { buildGraph := true } true).AllCalls sampleSteps c ∧
      sample.rules.answer c = .ok (.error e) s' ∧
      (e.request :: (c.stack.takeWhile fun x => x ≠ e.request).reverse ++
        [e.request]).IsChain s.state.graph.Edge := by
  have hrun : ((Session.start sample { buildGraph := true } true).after? sampleSteps).any
      (fun s => decide (s.state.graph.request? 0 = some (.keyed .cached "loop") ∧
        0 ∈ s.state.graph.dependencies 0)) = true := by
    decide +kernel
  obtain ⟨hgoes, hends⟩ :=
    cyclic_iff_error sample { buildGraph := true } rfl true sampleSteps sampleSteps_evaluate
  obtain ⟨s, hs⟩ := hgoes (Session.known_of_requests (by decide +kernel) (by decide +kernel))
  obtain ⟨hiff, hchain⟩ := hends s hs
  rw [hs] at hrun
  obtain ⟨hrequest, hdependency⟩ := of_decide_eq_true hrun
  obtain ⟨c, e, s', hc, he⟩ := (hiff isPlain_sample).1
    ⟨.keyed .cached "loop", .single ⟨0, 0, hrequest, hdependency, hrequest⟩⟩
  exact ⟨s, c, e, s', hs, hc, he, (hchain c e s' hc he).2.2⟩

end Demand.Script
