import Demand.Proofs.Engine.Order

/-!
# Where results and records come from

A request whose result the engine keeps has a result and a record from the same hand: an evaluation
leaves both as they are or computes both (`Rules.provenance_evaluate`), and a command that evaluates
nothing leaves both, drops both, or gives a result where there is none (`Command.touches`). So a
record is there only with a result (`State.Fresh`).
-/

namespace Demand

variable {F : Family} {α : Type}

/-- A request whose result the engine keeps has no record without a result, and no record is
empty. -/
structure State.Fresh (s : State F) : Prop where
  recorded : ∀ q, F.inEngine q → s.result? q = none → s.recorded? q = none
  nonempty : ∀ q, s.recorded? q ≠ some []

/-- The request has the same result and the same record. -/
structure State.Same (q : F.Request) (s s' : State F) : Prop where
  result : s'.result? q = s.result? q
  recorded : s'.recorded? q = s.recorded? q

theorem State.Same.refl (q : F.Request) (s : State F) : State.Same q s s :=
  ⟨rfl, rfl⟩

theorem State.Same.trans {q : F.Request} {s s' s'' : State F} (h : State.Same q s s')
    (h' : State.Same q s' s'') : State.Same q s s'' :=
  ⟨h'.result.trans h.result, h'.recorded.trans h.recorded⟩

theorem State.Same.of_eq (q : F.Request) {s s' : State F} (hc : s'.cache = s.cache)
    (hr : s'.recorder.recorded = s.recorder.recorded) : State.Same q s s' :=
  ⟨by rw [result?, hc]; rfl, by rw [recorded?, hr]; rfl⟩

/-- A result that is there stays through an evaluation, and so does its record. -/
theorem State.Same.of_persists {q : F.Request} (hq : F.inEngine q) {stack : List F.Request}
    {s s' : State F} (h : Persists stack s s') {out : F.Output q} (hs : s.result? q = some out) :
    State.Same q s s' := by
  have hserved : s.served? q = some out := by rw [served?, if_pos hq, hs]
  have hserved' := h.served q out hserved
  rw [served?, if_pos hq] at hserved'
  exact ⟨hserved'.trans hs.symm, h.recorded q out hserved⟩

theorem Still.same {s s' : State F} (h : Still s s') (q : F.Request) : State.Same q s s' :=
  .of_eq q h.cache h.recorded

theorem State.Fresh.of_same {s s' : State F} (hs : s.Fresh) (h : ∀ q, State.Same q s s') :
    s'.Fresh := by
  constructor
  · intro q hq hnone
    rw [(h q).result] at hnone
    rw [(h q).recorded]
    exact hs.recorded q hq hnone
  · intro q
    rw [(h q).recorded]
    exact hs.nonempty q

/-- The record of a computation comes with its result. -/
theorem State.Fresh.leaves {rules : Rules F} {r : F.Request} {out : F.Output r} {s s' : State F}
    (hs : s.Fresh) (h : Leaves rules r out s s') : s'.Fresh := by
  constructor
  · intro q hq hnone
    by_cases hqr : q = r
    · subst hqr
      rw [h.result_self hq] at hnone
      cases hnone
    · rw [h.result_of_ne q hqr] at hnone
      rw [h.recorded_of_ne q hqr]
      exact hs.recorded q hq hnone
  · intro q
    by_cases hqr : q = r
    · subst hqr
      by_cases ho : F.opensScope q
      · obtain ⟨scope, outer, -, hrec, -⟩ := h.own_scope ho
        rw [hrec]
        split
        · simp
        · simpa using ‹scope ≠ []›
      · rw [recorded?, (h.no_scope (by simpa using ho)).1]
        exact hs.nonempty q
    · rw [h.recorded_of_ne q hqr]
      exact hs.nonempty q

section Evaluate

variable {rules : Rules F}

/-- Every evaluation keeps records with results. -/
def freshly (lawful : rules.Lawful) : Discipline rules fun _ => True where
  before _ _ _ s := s.Fresh
  after _ _ _ _ s' := s'.Fresh
  exhausted _ := trivial
  faults _ := .inl fun _ _ => trivial
  cycle hb _ h := hb.of_same fun q => .of_eq q h.cache (by rw [h.recorder])
  hit hb _ _ h := hb.of_same fun q => .of_eq q h.cache h.recorded
  body := by
    intro n stack r s s₁ hb hr hnone hin
    have hs₁ : s₁.Fresh := hb.of_same fun q => .of_eq q hin.cache hin.recorded
    refine (Task.safe_invariant (I := State.Fresh) (fun s s' h hs => hs.of_same h.same)
      (fun _ _ _ hs => hs) (fun _ _ _ _ _ _ ho => ho.2) (rules.body r).asks_any (lawful.body r)
      hs₁).mono ?_
    exact fun out s₂ hs₂ s' hout => hs₂.leaves hout

/-- The call computes the result and the record that its request has in the state. -/
def Rules.Produces (rules : Rules F) (c : Call F) (s : State F) : Prop :=
  c.computes = true ∧ ∃ out s', rules.answer c = .ok (.ok out) s' ∧
    s.result? c.request = some out ∧ s.recorded? c.request = s'.recorded? c.request

theorem Rules.Produces.same {c : Call F} {s s' : State F} (h : rules.Produces c s)
    (hsame : State.Same c.request s s') : rules.Produces c s' := by
  obtain ⟨hc, out, s₁, ho, hresult, hrecorded⟩ := h
  exact ⟨hc, out, s₁, ho, hsame.result.trans hresult, hsame.recorded.trans hrecorded⟩

/-- What was computed stays through an evaluation. -/
theorem Rules.Produces.persists {c : Call F} {stack : List F.Request} {s s' : State F}
    (hq : F.inEngine c.request) (h : rules.Produces c s) (hp : Persists stack s s') :
    rules.Produces c s' := by
  obtain ⟨-, out, -, -, hresult, -⟩ := id h
  exact h.same (.of_persists hq hp hresult)

/-- If every answer leaves the result and the record of `q` or computes both, so does a task that
asks for answers. -/
theorem Task.provenance_run (lawful : rules.Lawful) {q : F.Request} (hq : F.inEngine q) {n : Nat}
    {stack : List F.Request}
    (hev : ∀ p s o s', rules.evaluate n stack p s = .ok o s' → State.Same q s s' ∨
      ∃ c, rules.Within ⟨n, stack, p, s⟩ c ∧ c.request = q ∧ rules.Produces c s')
    {t : Task F α} (hk : t.Keeps) {s s' : State F} {a : α}
    (h : t.run (rules.evaluate n stack) stack s = .ok a s') :
    State.Same q s s' ∨ ∃ p s₁ c, t.AsksAt (rules.evaluate n stack) stack s p s₁ ∧
      rules.Within ⟨n, stack, p, s₁⟩ c ∧ c.request = q ∧ rules.Produces c s' := by
  induction t generalizing s with
  | done a =>
    cases h
    exact .inl (.refl q _)
  | ask p next ih =>
    rw [run] at h
    obtain ⟨o, s₁, hp, h⟩ := Eval.bind_eq_ok.1 h
    rcases hev p s o s₁ hp with hsame | ⟨c, hc, rfl, hprod⟩
    · refine (ih o (hk o) h).imp hsame.trans ?_
      rintro ⟨p', s₂, c, ha, hc⟩
      exact ⟨p', s₂, c, .inr ⟨o, s₁, hp, ha⟩, hc⟩
    · -- what is computed once is not computed again
      have hframe := Task.frame_of_run lawful (hk o) h
      exact .inr ⟨p, s, c, .inl ⟨rfl, rfl⟩, hc, rfl, hprod.persists hq hframe.toPersists⟩
  | record ref next ih =>
    exact (ih hk h).imp (((Still.record s ref).same q).trans) id
  | report d next ih =>
    exact (ih hk h).imp (((Still.report s d).same q).trans) id
  | isActive p next ih =>
    simp only [asksAt_isActive]
    exact ih _ (hk _) h
  | current next ih => exact ih _ (hk _) h
  | log level text next ih =>
    exact (ih hk h).imp (((Still.log s level text).same q).trans) id
  | visit change next ih =>
    exact (ih _ (hk.2 _) h).imp (((Still.visit s hk.1).same q).trans) id

namespace Rules

/-- An evaluation leaves the result and the record of a request or computes both, in one call. -/
theorem provenance_evaluate (lawful : rules.Lawful) {q : F.Request} (hq : F.inEngine q) {n : Nat}
    {stack : List F.Request} {r : F.Request} {s s' : State F} {o : Outcome F r}
    (h : rules.evaluate n stack r s = .ok o s') : State.Same q s s' ∨
      ∃ c, rules.Within ⟨n, stack, r, s⟩ c ∧ c.request = q ∧ rules.Produces c s' := by
  induction n generalizing stack r s s' with
  | zero => cases h
  | succ n ih =>
    rcases evaluate_cases h with ⟨hr, hc, -⟩ | ⟨hr, out, hl, hs, -⟩ |
      ⟨hr, hl, s₁, out, s₂, hbegin, hin, hbody, hout, rfl⟩
    · exact .inl (.of_eq q hc.cache (by rw [hc.recorder]))
    · exact .inl (.of_eq q hs.cache hs.recorded)
    by_cases hqr : q = r
    · subst hqr
      have hcomputes : Call.computes ⟨n + 1, stack, q, s⟩ = true := by
        simp [Call.computes, begun?_eq_some_iff.2 ⟨hr, hl, hbegin⟩]
      exact .inr ⟨_, .refl, rfl, hcomputes, out, s', h, hout.result_self hq, rfl⟩
    · have hsame : State.Same q s s₁ := .of_eq q hin.cache hin.recorded
      have hsame' : State.Same q s₂ s' := ⟨hout.result_of_ne q hqr, hout.recorded_of_ne q hqr⟩
      rcases Task.provenance_run lawful hq (fun p s o s' => ih) (lawful.body r) hbody with
        hbody | ⟨p, s₃, c, hasks, hc, rfl, hprod⟩
      · exact .inl ((hsame.trans hbody).trans hsame')
      · exact .inr ⟨c, .head (.intro hr hl hbegin hasks) hc, rfl, hprod.same hsame'⟩

theorem provenance_evaluateAll (lawful : rules.Lawful) {q : F.Request} (hq : F.inEngine q)
    {n : Nat} {rs : List F.Request} {s s' : State F} {as : List (Answer F)}
    (h : rules.evaluateAll n rs s = .ok as s') : State.Same q s s' ∨
      ∃ c, rules.CallsIn n rs s c ∧ c.request = q ∧ rules.Produces c s' := by
  induction rs generalizing s as with
  | nil =>
    cases h
    exact .inl (.refl q _)
  | cons r rs ih =>
    obtain ⟨o, s₁, rest, ho, hrest, -⟩ := evaluateAll_cons.1 h
    simp only [callsIn_cons ho]
    rcases provenance_evaluate lawful hq ho with hsame | ⟨c, hc, rfl, hprod⟩
    · refine (ih hrest).imp hsame.trans ?_
      rintro ⟨c, hc, hcq⟩
      exact ⟨c, .inr hc, hcq⟩
    · refine .inr ⟨c, .inl hc, rfl, ?_⟩
      refine evaluateAll_invariant (I := rules.Produces c) ?_ hrest hprod
      intro r s o s' ho hprod
      exact hprod.persists hq (answers_of_evaluate lawful ho).toPersists

end Rules

end Evaluate

/-! ## Commands -/

/-- A value is stored only where there is none. -/
theorem Tables.value?_of_insert {V : F.Request → Type} {t t' : Tables F V} {r : F.Request} {v : V r}
    (h : t.insert r v = .ok t') : t.value? r = none := by
  unfold insert at h
  unfold value?
  cases he : t.entriesOf (F.kind r) with
  | error f => rw [he] at h; cases h
  | ok es =>
    rw [entries_eq he]
    rw [he] at h
    cases hf : Entries.find? r es with
    | none => rfl
    | some w => simp only [bind, Except.bind, hf] at h; cases h

namespace Command

/-- What a command that evaluates nothing does to the result and the record of a request: it leaves
both, drops both, or gives a result where there is none. -/
inductive Touches (q : F.Request) (c : Command F) (s s' : State F) : Prop
  | same (h : State.Same q s s') : Touches q c s s'
  | dropped (hdrops : c.Drops q) (hresult : s'.result? q = none)
      (hrecorded : s'.recorded? q = none) : Touches q c s s'
  | given (out : F.Output q) (hput : c = .put q out) (hnone : s.result? q = none)
      (hresult : s'.result? q = some out) (hrecorded : s'.recorded? q = s.recorded? q) :
      Touches q c s s'

theorem Touches.same_right {q : F.Request} {c : Command F} {s s' s'' : State F}
    (h : Touches q c s s') (hs : State.Same q s' s'') : Touches q c s s'' := by
  cases h with
  | same h => exact .same (h.trans hs)
  | dropped hdrops hresult hrecorded =>
    exact .dropped hdrops (hs.result.trans hresult) (hs.recorded.trans hrecorded)
  | given out hput hnone hresult hrecorded =>
    exact .given out hput hnone (hs.result.trans hresult) (hs.recorded.trans hrecorded)

theorem touches_put (q r : F.Request) (out : F.Output r) (s : State F) :
    Touches q (.put r out) s ((Eval.putResult r out).final s) := by
  obtain ⟨log, h | ⟨-, h⟩ | ⟨cache, hi, -, h⟩⟩ := final_putResult r out s
  · rw [h]
    exact .same ⟨rfl, rfl⟩
  · rw [h]
    exact .same ⟨rfl, rfl⟩
  · rw [h]
    obtain ⟨hself, hother⟩ := Tables.insert_values hi
    by_cases hq : q = r
    · subst hq
      exact .given out rfl (Tables.value?_of_insert hi) hself rfl
    · exact .same ⟨hother q hq, rfl⟩

theorem touches_clear (q r : F.Request) (s : State F) :
    Touches q (.clear r) s ((Eval.clearResult r).final s) := by
  unfold Eval.clearResult
  cases he : (F.policyOf r).isExternal with
  | true => exact .same (.refl q s)
  | false =>
    simp only [Bool.false_eq_true, if_false]
    rw [Eval.final_get_bind, Eval.final_ofExcept_bind, Recorder.forget]
    cases hr : s.recorder.recorded.erase r with
    | error f => exact .same (.refl q s)
    | ok x =>
      obtain ⟨b, recorded⟩ := x
      obtain ⟨hself, hother⟩ := Tables.erase_values hr
      show Touches q _ s (Eval.final (Eval.ofExcept (s.cache.erase r) >>= _) _)
      rw [Eval.final_ofExcept_bind]
      cases hc : s.cache.erase r with
      | error f =>
        by_cases hq : q = r
        · subst hq
          exact .dropped rfl (Tables.value?_of_erase_error hc) hself
        · exact .same ⟨rfl, hother q hq⟩
      | ok y =>
        obtain ⟨hself', hother'⟩ := Tables.erase_values hc
        by_cases hq : q = r
        · subst hq
          exact .dropped rfl hself' hself
        · exact .same ⟨hother' q hq, hother q hq⟩

/-- What each command that evaluates nothing does to the result and the record of a request. -/
theorem touches {rules : Rules F} {c : Command F} (hc : ¬ c.IsEvaluate) (q : F.Request) (n : Nat)
    (s : State F) : Touches q c s ((c.run rules n).final s) := by
  cases c with
  | register zone kinds =>
    rw [run, Eval.final_map]
    obtain ⟨registry, log, h⟩ := final_register zone kinds s
    rw [h]
    exact .same ⟨rfl, rfl⟩
  | evaluate rs => exact absurd trivial hc
  | put r out =>
    rw [run, Eval.final_map _ fun _ => Reply.done]
    exact touches_put q r out s
  | isCached r =>
    rw [run, Eval.final_map, final_hasResult]
    exact .same (.refl q s)
  | clear r =>
    rw [run, Eval.final_map]
    exact touches_clear q r s
  | clearCache =>
    exact .dropped trivial (Tables.value?_clear s.cache q)
      (Tables.value?_clear s.recorder.recorded q)
  | references | statistics | dump | graphviz | report | diagnostics | takeDiagnostics =>
    exact .same ⟨rfl, rfl⟩

end Command

/-- A command keeps records with results. -/
theorem State.Fresh.touches {c : Command F} {s s' : State F} (hs : s.Fresh)
    (h : ∀ q, Command.Touches q c s s') : s'.Fresh := by
  constructor
  · intro q hq hnone
    cases h q with
    | same hsame =>
      rw [hsame.result] at hnone
      rw [hsame.recorded]
      exact hs.recorded q hq hnone
    | dropped _ _ hrecorded => exact hrecorded
    | given out _ _ hresult _ =>
      rw [hresult] at hnone
      cases hnone
  · intro q
    cases h q with
    | same hsame =>
      rw [hsame.recorded]
      exact hs.nonempty q
    | dropped _ _ hrecorded =>
      rw [hrecorded]
      simp
    | given out _ _ _ hrecorded =>
      rw [hrecorded]
      exact hs.nonempty q

end Demand
