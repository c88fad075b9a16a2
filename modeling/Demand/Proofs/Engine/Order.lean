import Demand.Proofs.Engine.Commands

/-!
# The calls of a run in order

The calls within a call, one after the other (`Rules.calls`, `Rules.mem_calls`), and the requests
that are computed in them (`Rules.computations`). A result that is remembered is computed just when
it is served afterwards and was not before (`Rules.count_computations`), so that computing it twice
takes dropping it in between.

Fuel decides only whether an evaluation ends: one that does not run out of it is the same with any
more of it (`Rules.evaluate_of_le`).
-/

namespace Demand

variable {F : Family} {α β : Type}

/-! ## The moments of a run -/

/-- The requests that the run of the task from `s` asks for, each with the state at that moment. -/
def Task.moments (evaluate : (r : F.Request) → Eval F (Outcome F r)) (stack : List F.Request) :
    Task F α → State F → List (F.Request × State F)
  | .done _, _ => []
  | .ask r next, s => (r, s) ::
    match evaluate r s with
    | .ok o s₁ => (next o).moments evaluate stack s₁
    | .error _ _ => []
  | .record ref next, s =>
    next.moments evaluate stack { s with recorder := s.recorder.write [ref] }
  | .report d next, s =>
    next.moments evaluate stack { s with diagnostics := s.diagnostics.report d }
  | .isActive r next, s => (next (stack.contains r)).moments evaluate stack s
  | .current next, s => (next stack.head?).moments evaluate stack s
  | .log level text next, s =>
    next.moments evaluate stack { s with log := s.log.write level text }
  | .visit change next, s =>
    (next s.world).moments evaluate stack { s with world := change s.world }

theorem Task.mem_moments {evaluate : (r : F.Request) → Eval F (Outcome F r)}
    {stack : List F.Request} {t : Task F α} {s s' : State F} {q : F.Request} :
    (q, s') ∈ t.moments evaluate stack s ↔ t.AsksAt evaluate stack s q s' := by
  induction t generalizing s with
  | done a => simp [moments, AsksAt]
  | ask r next ih =>
    rw [moments, AsksAt, List.mem_cons, Prod.mk.injEq]
    cases he : evaluate r s with
    | ok o s₁ => simp [ih]
    | error e s₁ => simp
  | record ref next ih => exact ih
  | report d next ih => exact ih
  | isActive r next ih =>
    rw [asksAt_isActive, moments, List.contains_eq_mem]
    exact ih _
  | current next ih => exact ih _
  | log level text next ih => exact ih
  | visit change next ih => exact ih _

/-! ## The calls within a call -/

/-- The state in which the body of the request starts, if asking for it computes it. -/
def Rules.begun? (stack : List F.Request) (r : F.Request) (s : State F) : Option (State F) :=
  if stack.contains r then none
  else match s.lookup r, begin stack r s with
    | .ok none, .ok _ s₁ => some s₁
    | _, _ => none

/-- Whether the request of the call is computed. -/
def Call.computes (c : Call F) : Bool :=
  c.fuel != 0 && (Rules.begun? c.stack c.request c.state).isSome

namespace Rules

variable (rules : Rules F)

/-- The calls within a call, in the order in which they are made. -/
def calls : Nat → List F.Request → F.Request → State F → List (Call F)
  | 0, stack, r, s => [⟨0, stack, r, s⟩]
  | n + 1, stack, r, s => ⟨n + 1, stack, r, s⟩ ::
    match begun? stack r s with
    | none => []
    | some s₁ => ((rules.body r).moments (rules.evaluate n (r :: stack)) (r :: stack) s₁).flatMap
        fun m => calls n (r :: stack) m.1 m.2

/-- The requests that are computed within a call, in the order in which they are begun. -/
def computations (n : Nat) (stack : List F.Request) (r : F.Request) (s : State F) :
    List F.Request :=
  ((rules.calls n stack r s).filter Call.computes).map Call.request

variable {rules} {n : Nat} {stack : List F.Request} {r : F.Request} {s s₁ : State F}

theorem begun?_eq_some_iff : begun? stack r s = some s₁ ↔
    r ∉ stack ∧ s.lookup r = .ok none ∧ begin stack r s = .ok () s₁ := by
  unfold begun?
  by_cases hr : r ∈ stack
  · simp [hr]
  · rw [if_neg (by simpa using hr)]
    cases hl : s.lookup r with
    | error f => simp
    | ok v =>
      cases v with
      | some out => simp
      | none =>
        cases hb : begin stack r s with
        | ok u s₂ => simp [hr]
        | error e s₂ => simp

/-- A call makes calls just if it begins to compute its request. -/
theorem makes_iff {c c' : Call F} : rules.Makes c c' ↔
    ∃ n s₁, c.fuel = n + 1 ∧ begun? c.stack c.request c.state = some s₁ ∧
      ∃ m ∈ (rules.body c.request).moments (rules.evaluate n (c.request :: c.stack))
        (c.request :: c.stack) s₁, c' = ⟨n, c.request :: c.stack, m.1, m.2⟩ := by
  constructor
  · intro h
    cases h with
    | intro hr hl hbegin hasks =>
      exact ⟨_, _, rfl, begun?_eq_some_iff.2 ⟨hr, hl, hbegin⟩, _, Task.mem_moments.2 hasks, rfl⟩
  · obtain ⟨fuel, stack, r, s⟩ := c
    rintro ⟨n, s₁, rfl, hbegun, m, hm, rfl⟩
    obtain ⟨hr, hl, hbegin⟩ := begun?_eq_some_iff.1 hbegun
    exact .intro hr hl hbegin (Task.mem_moments.1 hm)

theorem mem_calls {c : Call F} : c ∈ rules.calls n stack r s ↔ rules.Within ⟨n, stack, r, s⟩ c := by
  induction n generalizing stack r s with
  | zero =>
    rw [calls, List.mem_singleton]
    constructor
    · rintro rfl
      exact .refl
    · intro h
      rcases h.cases_head with rfl | ⟨c₁, hm, -⟩
      · rfl
      · obtain ⟨n, s₁, hn, -⟩ := makes_iff.1 hm
        cases hn
  | succ n ih =>
    rw [calls, List.mem_cons, Within, Relation.ReflTransGen.cases_head_iff, eq_comm]
    apply or_congr_right
    cases hbegun : begun? stack r s with
    | none => simp [makes_iff, hbegun]
    | some s₁ =>
      simp only [List.mem_flatMap, ih, makes_iff, hbegun]
      constructor
      · rintro ⟨m, hm, hc⟩
        exact ⟨_, ⟨n, s₁, rfl, rfl, m, hm, rfl⟩, hc⟩
      · rintro ⟨c₁, ⟨n', s₁', hn, hs, m, hm, rfl⟩, hc⟩
        cases hn
        cases hs
        exact ⟨m, hm, hc⟩

theorem computations_of_begun (h : begun? stack r s = some s₁) :
    rules.computations (n + 1) stack r s = r ::
      ((rules.body r).moments (rules.evaluate n (r :: stack)) (r :: stack) s₁).flatMap
        fun m => rules.computations n (r :: stack) m.1 m.2 := by
  have hself : Call.computes ⟨n + 1, stack, r, s⟩ = true := by simp [Call.computes, h]
  simp only [computations, calls, h, List.filter_cons_of_pos hself, List.map_cons,
    List.filter_flatMap, List.map_flatMap]

theorem computations_of_not_begun (h : begun? stack r s = none) :
    rules.computations n stack r s = [] := by
  have hself : Call.computes ⟨n, stack, r, s⟩ = false := by simp [Call.computes, h]
  cases n with
  | zero => simp [computations, calls, hself]
  | succ n => simp [computations, calls, h, hself]

end Rules

/-! ## Fuel -/

namespace Eval

/-- The steps from `s` stop because they are too deep. -/
def Exhausts (m : Eval F α) (s : State F) : Prop :=
  ∃ s', m s = .error .exhausted s'

theorem Exhausts.bind {m : Eval F α} {s : State F} (h : m.Exhausts s) (f : α → Eval F β) :
    (m >>= f).Exhausts s := by
  obtain ⟨s', hs'⟩ := h
  refine ⟨s', ?_⟩
  show EStateM.bind m f s = _
  simp [EStateM.bind, hs']

end Eval

/-- A task that is not cut short does the same where all that is not cut short is answered the
same. -/
theorem Task.run_eq_or_exhausts {evaluate evaluate' : (r : F.Request) → Eval F (Outcome F r)}
    (hev : ∀ q s, (evaluate q).Exhausts s ∨ evaluate' q s = evaluate q s)
    {stack : List F.Request} (t : Task F α) (s : State F) :
    (t.run evaluate stack).Exhausts s ∨ t.run evaluate' stack s = t.run evaluate stack s := by
  induction t generalizing s with
  | done a => exact .inr rfl
  | ask q next ih =>
    rw [run, run]
    rcases hev q s with he | he
    · exact .inl (he.bind _)
    · cases ho : evaluate q s with
      | ok o s₁ =>
        rw [ho] at he
        rw [Eval.bind_apply he, Eval.bind_apply ho]
        refine (ih o s₁).imp_left ?_
        rintro ⟨s', hs'⟩
        exact ⟨s', by rw [Eval.bind_apply ho, hs']⟩
      | error e s₁ =>
        refine .inr ?_
        show EStateM.bind _ _ s = EStateM.bind _ _ s
        simp [EStateM.bind, he, ho]
  | record ref next ih => exact ih _
  | report d next ih => exact ih _
  | isActive q next ih => exact ih _ s
  | current next ih => exact ih _ s
  | log level text next ih => exact ih _
  | visit change next ih => exact ih _ _

/-- An evaluation that does not run out of fuel is the same with more of it. -/
theorem Rules.evaluate_of_le (rules : Rules F) {n m : Nat} (hnm : n ≤ m) (stack : List F.Request)
    (r : F.Request) (s : State F) :
    (rules.evaluate n stack r).Exhausts s ∨
      rules.evaluate m stack r s = rules.evaluate n stack r s := by
  induction n generalizing m stack r s with
  | zero => exact .inl ⟨s, rfl⟩
  | succ n ih =>
    obtain ⟨m, rfl⟩ : ∃ k, m = k + 1 := ⟨m - 1, by omega⟩
    have hle : n ≤ m := by omega
    rw [Eval.Exhausts, evaluate_succ, evaluate_succ]
    by_cases hr : r ∈ stack
    · rw [if_pos hr, if_pos hr]
      exact .inr rfl
    · rw [if_neg hr, if_neg hr]
      cases s.lookup r with
      | error f => exact .inr rfl
      | ok v =>
        cases v with
        | some out => exact .inr rfl
        | none =>
          -- only the body asks for more, and it asks with one unit less
          cases hbegin : begin stack r s with
          | error e s₁ =>
            refine .inr ?_
            show EStateM.bind _ _ s = EStateM.bind _ _ s
            simp [EStateM.bind, hbegin]
          | ok u s₁ =>
            simp only [Eval.bind_apply hbegin]
            rcases Task.run_eq_or_exhausts (fun q s => ih hle (r :: stack) q s) (rules.body r) s₁
              with hbody | hbody
            · exact .inl (hbody.bind _)
            · exact .inr (Eval.bind_congr_apply hbody)

/-- Evaluations one after the other that end give the same with more fuel. -/
theorem Rules.evaluateAll_of_le {rules : Rules F} {n m : Nat} (hnm : n ≤ m)
    {rs : List F.Request} {as : List (Answer F)} {s s' : State F}
    (h : rules.evaluateAll n rs s = .ok as s') : rules.evaluateAll m rs s = .ok as s' := by
  induction rs generalizing s as with
  | nil => exact h
  | cons r rs ih =>
    obtain ⟨o, s₁, rest, ho, hrest, rfl⟩ := evaluateAll_cons.1 h
    refine evaluateAll_cons.2 ⟨o, s₁, rest, ?_, ih hrest, rfl⟩
    rcases rules.evaluate_of_le hnm [] r s with ⟨s₂, hstop⟩ | hsame
    · rw [ho] at hstop
      cases hstop
    · rw [hsame]
      exact ho

/-! ## Computing once -/

/-- A result of the request that is kept is found again. -/
def Family.Remembers (F : Family) (r : F.Request) : Prop :=
  F.inEngine r ∨ F.inStore r ∧ ∀ out w, F.fetch r (F.store r out w) = some out

/-- How many results of the request there are: one or none. -/
def State.results (s : State F) (r : F.Request) : Nat :=
  if (s.served? r).isSome then 1 else 0

theorem State.results_congr {s s' : State F} {r : F.Request} (h : s'.served? r = s.served? r) :
    s'.results r = s.results r := by
  rw [results, results, h]

theorem State.results_le_one (s : State F) (r : F.Request) : s.results r ≤ 1 := by
  unfold results
  split <;> omega

section Remembers

variable {rules : Rules F} {r : F.Request}

/-- A result that is remembered is served when it was computed. -/
theorem Leaves.served_self (hr : F.Remembers r) {out : F.Output r} {s s' : State F}
    (h : Leaves rules r out s s') : s'.served? r = some out := by
  rcases hr with he | ⟨hst, hfetch⟩
  · rw [State.served?, if_pos he, h.result_self he]
  · rw [State.served?_of_inStore hst, h.world, if_pos hst, hfetch]

theorem Leaves.results_self (hr : F.Remembers r) {out : F.Output r} {s s' : State F}
    (h : Leaves rules r out s s') : s'.results r = 1 := by
  rw [State.results, h.served_self hr]
  rfl

/-- A result that is remembered is there when the request was answered. -/
theorem Rules.served_of_evaluate (lawful : rules.Lawful) (hr : F.Remembers r) {n : Nat}
    {stack : List F.Request} {s s' : State F} {out : F.Output r}
    (h : rules.evaluate n stack r s = .ok (.ok out) s') : s'.served? r = some out := by
  cases n with
  | zero => cases h
  | succ n =>
    rcases evaluate_cases h with ⟨-, -, ho⟩ | ⟨-, out', hl, hs, ho⟩ |
      ⟨-, -, s₁, out', s₂, -, -, -, hout, ho⟩
    · cases ho
    · cases ho
      rw [hs.served? lawful]
      exact State.served?_of_lookup hl
    · cases ho
      exact hout.served_self hr

/-- If every answer computes `r` just when there is a result of it afterwards that was not there
before, so does a task that asks for answers. -/
theorem Task.count_run {n : Nat} {stack : List F.Request}
    (hev : ∀ q s o s', rules.evaluate n stack q s = .ok o s' →
      (rules.computations n stack q s).count r + s.results r = s'.results r)
    {t : Task F α} (hk : t.Keeps) {s s' : State F} {a : α}
    (h : t.run (rules.evaluate n stack) stack s = .ok a s') :
    ((t.moments (rules.evaluate n stack) stack s).flatMap
      fun m => rules.computations n stack m.1 m.2).count r + s.results r = s'.results r := by
  induction t generalizing s with
  | done a =>
    cases h
    simp [moments]
  | ask q next ih =>
    rw [run] at h
    obtain ⟨o, s₁, hq, h⟩ := Eval.bind_eq_ok.1 h
    have hrest := ih o (hk o) h
    have hfirst := hev q s o s₁ hq
    simp only [moments, hq, List.flatMap_cons, List.count_append]
    omega
  | record ref next ih =>
    rw [← State.results_congr ((Still.record s ref).served? r)]
    exact ih hk h
  | report d next ih =>
    rw [← State.results_congr ((Still.report s d).served? r)]
    exact ih hk h
  | isActive q next ih =>
    rw [moments, List.contains_eq_mem]
    exact ih _ (hk _) h
  | current next ih => exact ih _ (hk _) h
  | log level text next ih =>
    rw [← State.results_congr ((Still.log s level text).served? r)]
    exact ih hk h
  | visit change next ih =>
    rw [← State.results_congr ((Still.visit s hk.1).served? r)]
    exact ih _ (hk.2 _) h

namespace Rules

/-- An evaluation computes a request whose result is remembered just if there is a result of it
afterwards that was not there before. -/
theorem count_computations (lawful : rules.Lawful) (hr : F.Remembers r) {n : Nat}
    {stack : List F.Request} {q : F.Request} {s s' : State F} {o : Outcome F q}
    (h : rules.evaluate n stack q s = .ok o s') :
    (rules.computations n stack q s).count r + s.results r = s'.results r := by
  induction n generalizing stack q s s' with
  | zero => cases h
  | succ n ih =>
    rcases evaluate_cases h with ⟨hq, hc, -⟩ | ⟨hq, out, hl, hs, -⟩ |
      ⟨hq, hl, s₁, out, s₂, hbegin, hin, hbody, hout, -⟩
    · rw [computations_of_not_begun (by simp [begun?, hq]), State.results_congr (hc.served? r)]
      simp
    · rw [computations_of_not_begun (by simp [begun?, hq, hl]),
        State.results_congr (hs.served? lawful r)]
      simp
    · rw [computations_of_begun (begun?_eq_some_iff.2 ⟨hq, hl, hbegin⟩), List.count_cons]
      have hrun := Task.count_run (fun q s o s' => ih) (lawful.body q) hbody
      rw [State.results_congr (hin.served? r)] at hrun
      by_cases hqr : q = r
      · -- while it is active it gets no result, so the body does not compute it
        subst hqr
        have hframe := Task.frame_of_run lawful (lawful.body q) hbody
        have hs₂ : s₂.results q = s.results q := by
          apply State.results_congr
          rw [hframe.served_active q List.mem_cons_self, hin.served?]
        have hnone : s.results q = 0 := by simp [State.results, State.served?_of_lookup hl]
        have hself := hout.results_self hr
        simp only [beq_self_eq_true, if_true]
        omega
      · have hother : s'.results r = s₂.results r :=
          State.results_congr (hout.served?_of_ne lawful (Ne.symm hqr))
        simp only [beq_iff_eq, hqr, if_false]
        omega

variable (rules) in
/-- The requests that are computed when these are asked for from outside, one after the other. -/
def computationsAll (n : Nat) : List F.Request → State F → List F.Request
  | [], _ => []
  | q :: qs, s => rules.computations n [] q s ++
    match rules.evaluate n [] q s with
    | .ok _ s₁ => computationsAll n qs s₁
    | .error _ _ => []

theorem count_computationsAll (lawful : rules.Lawful) (hr : F.Remembers r) {n : Nat}
    {qs : List F.Request} {s s' : State F} {as : List (Answer F)}
    (h : rules.evaluateAll n qs s = .ok as s') :
    (rules.computationsAll n qs s).count r + s.results r = s'.results r := by
  induction qs generalizing s as with
  | nil =>
    cases h
    simp [computationsAll]
  | cons q qs ih =>
    obtain ⟨o, s₁, rest, hq, hqs, -⟩ := evaluateAll_cons.1 h
    have hfirst := count_computations lawful hr hq
    have hrest := ih hqs
    simp only [computationsAll, hq, List.count_append]
    omega

end Rules

end Remembers

end Demand
