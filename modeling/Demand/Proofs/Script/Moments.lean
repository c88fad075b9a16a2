import Demand.Proofs.Engine.Scopes
import Demand.Proofs.Script.Session

/-!
# Every moment of a scripted run

The moments of the steps of a session (`Session.moments`), and two statements about all of them,
whatever the scripts: a request that is asked for while it is active gets an error, and the
diagnostics are all that changes (`cycle_is_diagnosed`); and the open scopes are those of the
bodies that run, each of which collects what is written in it (`scopes_attribute_writes`).
-/

namespace Demand

/-- What asking for an active request does. -/
theorem Rules.evaluate_of_mem {F : Family} (rules : Rules F) {stack : List F.Request}
    {r : F.Request} (hr : r ∈ stack) (n : Nat) (s : State F) :
    rules.evaluate (n + 1) stack r s = .ok (.error ⟨r⟩)
      { s with
        graph := s.edge stack r
        log := if s.options.dumpCycles then
            (Eval.cycleTrace stack r).foldl (fun log text => log.write .warning text) s.log
          else s.log
        diagnostics := s.diagnostics ++ Eval.cycleReport stack r } := by
  rw [evaluate_succ, if_pos hr, Eval.bind_apply (Eval.recordEdge_apply stack r s)]
  rfl

/-- The report goes from the innermost request to the one that is asked for again. -/
theorem Eval.cycleReport_append {F : Family} {above below : List F.Request} {r : F.Request}
    (h : r ∉ above) :
    cycleReport (above ++ r :: below) r = F.cycleError r :: above.map F.cycleStep := by
  have habove : (above ++ r :: below).takeWhile (fun frame => frame ≠ r) = above := by
    rw [List.takeWhile_append_of_pos, List.takeWhile_cons_of_neg (by simp), List.append_nil]
    intro q hq
    simpa using ne_of_mem_of_not_mem hq h
  rw [cycleReport, habove]

end Demand

namespace Demand.Script

namespace Session

variable {s s' : Session} {st : Step}

/-- The moments of a step. -/
def moments (s : Session) (st : Step) : List (Moment family) :=
  s.table.rules.courseAll s.table.depth st.asked s.state

/-- No scope is open between steps. -/
theorem next?_closed (h : s.next? st = some s') (hs : s.state.recorder.scopes = []) :
    s'.state.recorder.scopes = [] := by
  rcases next?_cases h with ⟨-, as, s₁, hall, rfl⟩ | ⟨-, c, s₁, -, he, rfl⟩ | ⟨-, -, rfl⟩
  · show s₁.recorder.scopes = []
    refine Rules.evaluateAll_invariant (I := fun s => s.recorder.scopes = []) ?_ hall hs
    intro r s₀ o s₁ ho hs₀
    have hgrown := Rules.grown_evaluate ho
    rw [hs₀] at hgrown
    exact List.length_eq_zero_iff.1 hgrown.length_eq
  · exact he.scopes.trans hs
  · exact hs

theorem after?_closed {steps : List Step} (h : s.after? steps = some s')
    (hs : s.state.recorder.scopes = []) : s'.state.recorder.scopes = [] :=
  after?_invariant (I := fun s => s.state.recorder.scopes = []) (fun _ _ _ _ => next?_closed) h hs

theorem start_closed (table : Table) (options : Options) (register : Bool) :
    (start table options register).state.recorder.scopes = [] := by
  obtain ⟨registry, log, hstart⟩ := start_eq table options register
  rw [hstart]

/-- The active requests at a call are different, and there is fuel for what is asked for. -/
theorem bounded_of_calls {c : Call family} (hc : s.Calls st c) :
    Bounded (F := family) s.table.Asks s.table.requests.length c.fuel c.stack c.request := by
  refine Rules.CallsIn.of_invariant (I := fun _ => True)
    (P := fun c => Bounded (F := family) s.table.Asks s.table.requests.length c.fuel c.stack
      c.request) (fun _ _ _ _ _ _ => trivial) (fun q s₀ c _ hw => ?_) hc trivial
  exact ((bounded s.table.lawful (fun q => (s.table.scripted_body q).asks) s.table.requests
    (fun _ _ => Table.Asks.mem_requests) fun _ => True).within s.table.lawful hw
    ⟨bounded_start s.table q, .inl fun _ => trivial⟩).1

/-- At every moment the active requests are different, and there is fuel for what is asked for. -/
theorem nodup_and_fuel (hs : s.state.recorder.scopes = []) {m : Moment family}
    (hm : m ∈ s.moments st) : m.active.Nodup ∧ 0 < m.fuel := by
  obtain ⟨c, hc, hof⟩ := Rules.exists_callsIn_of_moment s.table.lawful hs hm
  have hb := bounded_of_calls hc
  rcases hof.place with ⟨hfuel, hactive⟩ | ⟨hfuel, hr, hactive⟩
  · rw [hfuel, hactive]
    exact ⟨hb.nodup, hb.pos fun _ _ => Table.Asks.mem_requests⟩
  · have hnodup : (c.request :: c.stack).Nodup := List.nodup_cons.2 ⟨hr, hb.nodup⟩
    have hle := hb.linked.length_le (fun _ _ => Table.Asks.mem_requests) hnodup
    have hbound := hb.fuel
    rw [hactive]
    exact ⟨hnodup, by omega⟩

/-- The moment at which a request is asked for. -/
theorem asks_mem_moments {c : Call family} (hc : s.Calls st c) :
    ⟨c.fuel, c.stack, c.stack, .asks c.request, c.state⟩ ∈ s.moments st := by
  refine (Rules.CallsIn.course_infix hc).subset ?_
  unfold Rules.courseOf
  cases c.fuel with
  | zero => exact List.mem_singleton_self _
  | succ n => exact List.mem_cons_self

/-- No step stops for want of a scope. -/
theorem result_ne_noScope (r : Request) : (s.step st).1.result ≠ .error (.fault (.noScope r)) := by
  have hact : (st.act s.table).FindsScope := by
    cases st with
    | command c =>
      exact (Command.findsScope_run s.table.lawful _ c).bind fun _ => Eval.findsScope_pure _
    | evaluateD r d =>
      exact (Rules.findsScope_evaluate s.table.lawful _ [] r).bind fun _ => Eval.findsScope_pure _
    | edit | options | listing => exact fun _ => trivial
  have hends := hact s.state
  unfold Eval.Ends at hends
  cases ha : st.act s.table s.state with
  | ok response s₁ =>
    rw [step_eq_of_ok ha]
    simp
  | error stop s₁ =>
    rw [ha] at hends
    rw [step_eq_of_error ha]
    intro he
    exact hends r (Except.error.inj he)

end Session

/-- At every moment of a run, asking for a request gives an error just if the request is active. The
error is about that request. It is active once, and the report goes from its own error over the
requests above it, the innermost first. Nothing else changes but the graph, if one is kept, and the
log, if cycles are written to it. -/
theorem cycle_is_diagnosed (table : Table) (options : Options) (register : Bool)
    (steps : List Step) (s : Session)
    (hs : (Session.start table options register).after? steps = some s) (st : Step) :
    (∀ c, s.Calls st c →
      ⟨c.fuel, c.stack, c.stack, .asks c.request, c.state⟩ ∈ s.moments st) ∧
    ∀ m ∈ s.moments st, ∀ r : Request,
      ((∃ e s', s.table.rules.evaluate m.fuel m.active r m.state = .ok (.error e) s') ↔
        r ∈ m.active) ∧
      (r ∈ m.active → ∃ above below, m.active = above ++ r :: below ∧ r ∉ above ∧ r ∉ below ∧
        s.table.rules.evaluate m.fuel m.active r m.state = .ok (.error ⟨r⟩)
          { m.state with
            graph := m.state.edge m.active r
            log := if m.state.options.dumpCycles then
                (Eval.cycleTrace (F := family) m.active r).foldl
                  (fun log text => log.write .warning text) m.state.log
              else m.state.log
            diagnostics := m.state.diagnostics ++
              family.cycleError r :: above.map family.cycleStep }) := by
  refine ⟨fun c hc => Session.asks_mem_moments hc, fun m hm r => ?_⟩
  have hclosed := Session.after?_closed hs (Session.start_closed table options register)
  obtain ⟨hnodup, hfuel⟩ := Session.nodup_and_fuel hclosed hm
  obtain ⟨n, hn⟩ : ∃ n, m.fuel = n + 1 := ⟨m.fuel - 1, by omega⟩
  rw [hn]
  refine ⟨⟨?_, fun hr => ⟨_, _, Rules.evaluate_of_mem _ hr n m.state⟩⟩, fun hr => ?_⟩
  · rintro ⟨e, s', he⟩
    exact (Rules.mem_stack_of_error he).1
  · obtain ⟨above, below, hsplit⟩ := List.append_of_mem hr
    rw [hsplit] at hnodup
    have habove : r ∉ above := fun h => by
      exact (List.nodup_append.1 hnodup).2.2 r h r List.mem_cons_self rfl
    have hbelow : r ∉ below := (List.nodup_cons.1 (List.nodup_append.1 hnodup).2.1).1
    refine ⟨above, below, hsplit, habove, hbelow, ?_⟩
    rw [Rules.evaluate_of_mem _ hr n m.state, ← Eval.cycleReport_append habove, ← hsplit]

/-- Requests that ask for each other in turn, reached from outside the circle. -/
def ring : Table :=
  [((.keyed .cached, "a"), { actions := [.evaluate (.keyed .cached "b") 0] }),
   ((.keyed .cached, "b"),
    { actions := [.record (.topLevel "x"), .evaluate (.keyed .cached "c") 0] }),
   ((.keyed .cached, "c"), { actions := [.attempt (.keyed .cached "b"), .record (.topLevel "y")] })]

/-- On the ring, the request that closes the circle is found two requests deep. -/
theorem cycle_is_diagnosed_ring :
    let a : Request := .keyed .cached "a"
    let b : Request := .keyed .cached "b"
    let c : Request := .keyed .cached "c"
    ∃ m ∈ (Session.start ring {} true).moments (.command (.evaluate [a])),
      m.active = [c, b, a] ∧ ∃ s', ring.rules.evaluate m.fuel m.active b m.state =
        .ok (.error ⟨b⟩) s' ∧ s'.diagnostics = [family.cycleError b, family.cycleStep c] := by
  intro a b c
  have hrun : ((Session.start ring {} true).moments (.command (.evaluate [a]))).any (fun m =>
      decide (m.active = [c, b, a] ∧ m.state.diagnostics = [])) = true := by
    decide +kernel
  obtain ⟨m, hm, hactive⟩ := List.any_eq_true.1 hrun
  obtain ⟨hactive, hnone⟩ := of_decide_eq_true hactive
  obtain ⟨above, below, hsplit, habove, -, he⟩ :=
    ((cycle_is_diagnosed ring {} true [] _ rfl _).2 m hm b).2 (by rw [hactive]; decide)
  have hc : above = [c] := by
    rw [hactive] at hsplit
    rcases above with _ | ⟨x, _ | ⟨y, rest⟩⟩
    · exact absurd (List.cons.inj hsplit).1 (by simp [b, c])
    · rw [(List.cons.inj hsplit).1]
    · have hy : b = y := (List.cons.inj (List.cons.inj hsplit).2).1
      exact absurd (by simp [hy]) habove
  refine ⟨m, hm, hactive, _, he, ?_⟩
  rw [hc, hnone]
  rfl

/-- The open scopes of a run. Between steps there are none, and no step stops for want of one. At
every moment there is one for each request whose body runs and that has one of its own. A request
that is computed in its own scope has recorded for it what is written while the scope is open, in
place of what was recorded before, and nothing if nothing is written; and all of it is in the scope
around, if there is one. -/
theorem scopes_attribute_writes (table : Table) (options : Options) (register : Bool)
    (steps : List Step) (s : Session)
    (hs : (Session.start table options register).after? steps = some s) (st : Step) :
    s.state.recorder.scopes = [] ∧
    (∀ r : Request, (s.step st).1.result ≠ .error (.fault (.noScope r))) ∧
    (∀ m ∈ s.moments st, m.state.recorder.scopes.length = m.running.countP family.opensScope ∧
      (m.running = m.active ∨ ∃ r, m.active = r :: m.running)) ∧
    ∀ c o s', s.Calls st c → c.computes = true → family.opensScope c.request = true →
      s.table.rules.answer c = .ok o s' → ∃ out opened inside closed scope, o = .ok out ∧
        opened :: (inside ++ [closed]) <:+: s.moments st ∧
        s.table.rules.Collects c out s' opened inside closed scope := by
  have hclosed := Session.after?_closed hs (Session.start_closed table options register)
  have hof : ∀ m ∈ s.moments st, ∃ c, s.Calls st c ∧ m.Of c := fun m hm =>
    Rules.exists_callsIn_of_moment s.table.lawful hclosed hm
  refine ⟨hclosed, fun r => Session.result_ne_noScope r, fun m hm => ?_, ?_⟩
  · obtain ⟨c, -, hm⟩ := hof m hm
    exact ⟨hm.balanced, hm.running⟩
  · intro c o s' hc hcomputes hopens ho
    obtain ⟨_, -, hm⟩ := hof _ (Session.asks_mem_moments hc)
    obtain ⟨out, opened, inside, closed, scope, hout, hinfix, hcollects⟩ :=
      Rules.exists_collects s.table.lawful hm.balanced hcomputes hopens ho
    exact ⟨out, opened, inside, closed, scope, hout,
      hinfix.trans (Rules.CallsIn.course_infix hc), hcollects⟩

/-- On the ring, the scope of the request in the middle collects what it records and what the one
that it asks for records, and the scope around it gets both. -/
theorem scopes_attribute_writes_ring :
    let s := Session.start ring {} true
    let st : Step := .command (.evaluate [.keyed .cached "a"])
    ∃ c out s' opened inside closed, s.Calls st c ∧ c.request = .keyed .cached "b" ∧
      c.computes = true ∧ family.opensScope c.request = true ∧
      s.table.rules.answer c = .ok (.ok out) s' ∧
      opened :: (inside ++ [closed]) <:+: s.moments st ∧
      s.table.rules.Collects c out s' opened inside closed [.topLevel "x", .topLevel "y"] := by
  intro s st
  have hrun : (s.table.rules.calls s.table.depth [] (.keyed .cached "a") s.state).any (fun c =>
      decide (c.request = .keyed .cached "b") && c.computes &&
        match s.table.rules.answer c with
        | .ok _ s' => decide (s'.recorded? c.request = some [.topLevel "x", .topLevel "y"])
        | .error _ _ => false) = true := by
    decide +kernel
  obtain ⟨c, hmem, hc⟩ := List.any_eq_true.1 hrun
  rw [Bool.and_eq_true, Bool.and_eq_true, decide_eq_true_iff] at hc
  obtain ⟨⟨hrequest, hcomputes⟩, hanswer⟩ := hc
  have hcalls : s.Calls st c := .inl (Rules.mem_calls.1 hmem)
  have hopens : family.opensScope c.request = true := by rw [hrequest]; rfl
  cases ho : s.table.rules.answer c with
  | error stop s' =>
    rw [ho] at hanswer
    cases hanswer
  | ok o s' =>
    rw [ho] at hanswer
    have hrecorded := of_decide_eq_true hanswer
    obtain ⟨out, opened, inside, closed, scope, rfl, hinfix, hcollects⟩ :=
      (scopes_attribute_writes ring {} true [] s rfl st).2.2.2 c o s' hcalls hcomputes hopens ho
    have hscope : scope = [.topLevel "x", .topLevel "y"] := by
      have hif := hcollects.recorded.symm.trans hrecorded
      split at hif
      · cases hif
      · exact Option.some.inj hif
    rw [hscope] at hcollects
    exact ⟨c, out, s', opened, inside, closed, hcalls, hrequest, hcomputes, hopens, ho, hinfix,
      hcollects⟩

end Demand.Script
