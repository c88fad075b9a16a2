import Demand.Proofs.Engine.Commands

/-!
# What has become of a request at the end of a run

A task covers requests if it asks for each of them as long as every answer is a result
(`Task.Covers`). If bodies cover what they may ask for and no request is asked for while it is
active, a run has asked for all that its requests lead to: what passes to a request from those that
it may ask for holds of every request of the run (`Rules.completes_evaluate`).

What a request has after each of its calls it has at the end, for no other call takes it away
(`Rules.holds_evaluate`). And nothing is kept that is not meant to be (`State.Tidy`).
-/

namespace Demand

variable {F : Family} {α β : Type}

namespace Task

/-! ## Tasks that ask for all they may -/

/-- As long as every answer is a result, the task asks for all of these requests, and its own result
is one of `Q`. -/
def Covers (Q : α → Prop) : Task F α → (F.Request → Prop) → Prop
  | .done a, p => (∀ q, ¬ p q) ∧ Q a
  | .ask r next, p => ∀ v, (next (.ok v)).Covers Q fun q => p q ∧ q ≠ r
  | .record _ next, p => next.Covers Q p
  | .report _ next, p => next.Covers Q p
  | .isActive _ next, p => ∀ b, (next b).Covers Q p
  | .current next, p => ∀ r, (next r).Covers Q p
  | .log _ _ next, p => next.Covers Q p
  | .visit _ next, p => ∀ w, (next w).Covers Q p

theorem Covers.anti {Q : α → Prop} {t : Task F α} {p p' : F.Request → Prop} (h : t.Covers Q p)
    (hp : ∀ q, p' q → p q) : t.Covers Q p' := by
  induction t generalizing p p' with
  | done a => exact ⟨fun q hq => h.1 q (hp q hq), h.2⟩
  | ask r next ih => exact fun v => ih _ (h v) fun q hq => ⟨hp q hq.1, hq.2⟩
  | record ref next ih => exact ih h hp
  | report d next ih => exact ih h hp
  | isActive q next ih => exact fun b => ih b (h b) hp
  | current next ih => exact fun r => ih r (h r) hp
  | log level text next ih => exact ih h hp
  | visit change next ih => exact fun w => ih w (h w) hp

theorem Covers.bind {Q : α → Prop} {Q' : β → Prop} {t : Task F α} {f : α → Task F β}
    {p p' : F.Request → Prop} (ht : t.Covers Q p) (hf : ∀ a, Q a → (f a).Covers Q' p') :
    (t >>= f).Covers Q' fun q => p q ∨ p' q := by
  show (t.bind f).Covers Q' _
  induction t generalizing p p' with
  | done a => exact (hf a ht.2).anti fun q hq => hq.resolve_left (ht.1 q)
  | ask r next ih =>
    intro v
    refine (ih _ (ht v) hf).anti ?_
    rintro q ⟨hq | hq, hne⟩
    · exact .inl ⟨hq, hne⟩
    · exact .inr hq
  | record ref next ih => exact ih ht hf
  | report d next ih => exact ih ht hf
  | isActive q next ih => exact fun b => ih b (ht b) hf
  | current next ih => exact fun r => ih r (ht r) hf
  | log level text next ih => exact ih ht hf
  | visit change next ih => exact fun w => ih w (ht w) hf

variable {evaluate : (r : F.Request) → Eval F (Outcome F r)} {stack : List F.Request}

/-- A run in which every answer is a result asks for all that its task covers. -/
theorem Covers.exists_asksAt {Q : α → Prop} {t : Task F α} {p : F.Request → Prop}
    (ht : t.Covers Q p) {s s' : State F} {a : α} (h : t.run evaluate stack s = .ok a s')
    (hok : ∀ q s₁ o s₂, t.AsksAt evaluate stack s q s₁ → evaluate q s₁ = .ok o s₂ →
      ∃ v, o = .ok v)
    {q : F.Request} (hq : p q) : ∃ s₁, t.AsksAt evaluate stack s q s₁ := by
  induction t generalizing s p with
  | done a => exact absurd hq (ht.1 q)
  | ask r next ih =>
    rw [run] at h
    obtain ⟨o, s₁, ho, h⟩ := Eval.bind_eq_ok.1 h
    obtain ⟨v, rfl⟩ := hok r s o s₁ (.inl ⟨rfl, rfl⟩) ho
    by_cases hqr : q = r
    · exact ⟨s, .inl ⟨hqr, rfl⟩⟩
    · obtain ⟨s₂, hs₂⟩ := ih _ (ht v) h
        (fun q s₂ o s₃ ha => hok q s₂ o s₃ (.inr ⟨_, s₁, ho, ha⟩)) ⟨hq, hqr⟩
      exact ⟨s₂, .inr ⟨_, s₁, ho, hs₂⟩⟩
  | record ref next ih => exact ih ht h hok hq
  | report d next ih => exact ih ht h hok hq
  | isActive r next ih =>
    simp only [asksAt_isActive] at hok ⊢
    exact ih _ (ht _) h hok hq
  | current next ih => exact ih _ (ht _) h hok hq
  | log level text next ih => exact ih ht h hok hq
  | visit change next ih => exact ih _ (ht _) h hok hq

/-! ## From one answer to the next -/

/-- What the answers of a run keep holds whenever it asks, and when it ends. -/
theorem invariant_of_run {I : State F → Prop} (hstill : ∀ s s', Still s s' → I s → I s')
    {t : Task F α} (hk : t.Keeps) {s : State F}
    (hev : ∀ q s₁ o s₂, t.AsksAt evaluate stack s q s₁ → evaluate q s₁ = .ok o s₂ →
      I s₁ → I s₂) (hs : I s) :
    (∀ q s₁, t.AsksAt evaluate stack s q s₁ → I s₁) ∧
      ∀ a s', t.run evaluate stack s = .ok a s' → I s' := by
  induction t generalizing s with
  | done a =>
    refine ⟨fun q s₁ ha => ha.elim, fun a s' h => ?_⟩
    cases h
    exact hs
  | ask r next ih =>
    have hnext : ∀ o s₁, evaluate r s = .ok o s₁ →
        (∀ q s₂, (next o).AsksAt evaluate stack s₁ q s₂ → I s₂) ∧
          ∀ a s', (next o).run evaluate stack s₁ = .ok a s' → I s' := fun o s₁ ho =>
      ih o (hk o) (fun q s₂ o' s₃ ha => hev q s₂ o' s₃ (.inr ⟨o, s₁, ho, ha⟩))
        (hev r s o s₁ (.inl ⟨rfl, rfl⟩) ho hs)
    constructor
    · rintro q s₁ (⟨rfl, rfl⟩ | ⟨o, s₂, ho, ha⟩)
      · exact hs
      · exact (hnext o s₂ ho).1 q s₁ ha
    · intro a s' h
      rw [run] at h
      obtain ⟨o, s₁, ho, h⟩ := Eval.bind_eq_ok.1 h
      exact (hnext o s₁ ho).2 a s' h
  | record ref next ih => exact ih hk hev (hstill _ _ (Still.record s ref) hs)
  | report d next ih => exact ih hk hev (hstill _ _ (Still.report s d) hs)
  | isActive r next ih =>
    simp only [asksAt_isActive] at hev ⊢
    exact ih _ (hk _) hev hs
  | current next ih => exact ih _ (hk _) hev hs
  | log level text next ih => exact ih hk hev (hstill _ _ (Still.log s level text) hs)
  | visit change next ih => exact ih _ (hk.2 _) hev (hstill _ _ (Still.visit s hk.1) hs)

/-- After an answer, a run is the run of the rest of its task. -/
theorem exists_rest {t : Task F α} (hk : t.Keeps) {s s₁ s₂ s' : State F} {a : α} {q : F.Request}
    {o : Outcome F q} (h : t.run evaluate stack s = .ok a s')
    (ha : t.AsksAt evaluate stack s q s₁) (ho : evaluate q s₁ = .ok o s₂) :
    ∃ rest : Task F α, rest.Keeps ∧ rest.run evaluate stack s₂ = .ok a s' ∧
      ∀ p s₃, rest.AsksAt evaluate stack s₂ p s₃ → t.AsksAt evaluate stack s p s₃ := by
  induction t generalizing s with
  | done a => exact ha.elim
  | ask r next ih =>
    rw [run] at h
    obtain ⟨o', s₃, ho', h⟩ := Eval.bind_eq_ok.1 h
    rcases ha with ⟨rfl, rfl⟩ | ⟨o'', s₄, ho'', ha⟩
    · rw [ho] at ho'
      cases ho'
      exact ⟨next o, hk o, h, fun p s₃ hp => .inr ⟨o, s₂, ho, hp⟩⟩
    · rw [ho'] at ho''
      cases ho''
      obtain ⟨rest, hrest, hrun, hasks⟩ := ih o' (hk o') h ha
      exact ⟨rest, hrest, hrun, fun p s₄ hp => .inr ⟨o', s₃, ho', hasks p s₄ hp⟩⟩
  | record ref next ih => exact ih hk h ha
  | report d next ih => exact ih hk h ha
  | isActive r next ih =>
    simp only [asksAt_isActive] at ha ⊢
    exact ih _ (hk _) h ha
  | current next ih => exact ih _ (hk _) h ha
  | log level text next ih => exact ih hk h ha
  | visit change next ih => exact ih _ (hk.2 _) h ha

end Task

/-! ## What a request has after its calls -/

/-- The request has what it had: its results and its record. -/
structure Untouched (q : F.Request) (s s' : State F) : Prop where
  result : s'.result? q = s.result? q
  fetch : F.fetch q s'.world = F.fetch q s.world
  recorded : s'.recorded? q = s.recorded? q

namespace Untouched

variable {rules : Rules F} {q r : F.Request} {stack : List F.Request} {s s' : State F}

theorem of_eq (hc : s'.cache = s.cache) (hw : F.fetch q s'.world = F.fetch q s.world)
    (hr : s'.recorder.recorded = s.recorder.recorded) : Untouched q s s' :=
  ⟨by rw [State.result?, hc]; rfl, hw, by rw [State.recorded?, hr]; rfl⟩

theorem still (h : Still s s') : Untouched q s s' :=
  .of_eq h.cache (h.fetch q) h.recorded

theorem cycles (h : Cycles stack r s s') : Untouched q s s' :=
  .of_eq h.cache (by rw [h.world]) (by rw [h.recorder])

theorem serves (lawful : rules.Lawful) {out : F.Output r} (h : Serves rules stack r out s s') :
    Untouched q s s' :=
  .of_eq h.cache (by rw [h.world, lawful.fetch_told]) h.recorded

theorem enters (h : Enters stack r s s') : Untouched q s s' :=
  .of_eq h.cache (by rw [h.world]) h.recorded

/-- Closing a computation touches its own request only. -/
theorem leaves (lawful : rules.Lawful) {out : F.Output r} (h : Leaves rules r out s s')
    (hq : q ≠ r) : Untouched q s s' :=
  ⟨h.result_of_ne q hq, h.fetch_of_ne lawful hq, h.recorded_of_ne q hq⟩

end Untouched

namespace Rules

variable {rules : Rules F} {n : Nat}

section Holds

variable {q : F.Request} {P : State F → Prop} (hP : ∀ s s', Untouched q s s' → P s → P s')

include hP

/-- What holds of the result and the record of a request after each call of it holds at the end of
an evaluation, if it held before or the request was called. -/
theorem holds_evaluate (lawful : rules.Lawful) {stack : List F.Request} {r : F.Request}
    {s s' : State F} {o : Outcome F r}
    (hcall : ∀ c, rules.Within ⟨n, stack, r, s⟩ c → c.request = q →
      ∀ o s₁, rules.answer c = .ok o s₁ → P s₁)
    (h : rules.evaluate n stack r s = .ok o s')
    (hs : P s ∨ ∃ c, rules.Within ⟨n, stack, r, s⟩ c ∧ c.request = q) : P s' := by
  by_cases hrq : r = q
  · exact hcall _ .refl hrq o s' h
  induction n generalizing stack r s s' with
  | zero => cases h
  | succ n ih =>
    have hother : ∀ c, rules.Within ⟨n + 1, stack, r, s⟩ c → c.request = q →
        c ≠ ⟨n + 1, stack, r, s⟩ := by
      rintro c - hc rfl
      exact hrq hc
    rcases evaluate_cases h with ⟨hr, hc, -⟩ | ⟨hr, out, hl, hserves, -⟩ |
      ⟨hr, hl, s₁, out, s₂, hbegin, hin, hbody, hout, -⟩
    · refine hP s s' (.cycles hc) (hs.resolve_right ?_)
      rintro ⟨c, hw, hcq⟩
      exact hother c hw hcq ((within_uncomputed (.inl hr) c).1 hw)
    · refine hP s s' (.serves lawful hserves) (hs.resolve_right ?_)
      rintro ⟨c, hw, hcq⟩
      exact hother c hw hcq ((within_uncomputed (.inr (by rw [hl]; simp)) c).1 hw)
    · have hstill : ∀ s s', Still s s' → P s → P s' := fun s s' h => hP s s' (.still h)
      have hmoment : ∀ p s₃ o s₄,
          (rules.body r).AsksAt (rules.evaluate n (r :: stack)) (r :: stack) s₁ p s₃ →
          rules.evaluate n (r :: stack) p s₃ = .ok o s₄ →
          (P s₃ ∨ ∃ c, rules.Within ⟨n, r :: stack, p, s₃⟩ c ∧ c.request = q) → P s₄ := by
        intro p s₃ o s₄ ha ho hs₃
        have hin : ∀ c, rules.Within ⟨n, r :: stack, p, s₃⟩ c →
            rules.Within ⟨n + 1, stack, r, s⟩ c := fun c hw =>
          (within_computed hr hl hbegin c).2 (.inr ⟨p, s₃, ha, hw⟩)
        by_cases hpq : p = q
        · exact hcall _ (hin _ .refl) hpq o s₄ ho
        · exact ih (fun c hw => hcall c (hin c hw)) ho hs₃ hpq
      refine hP s₂ s' (.leaves lawful hout (Ne.symm hrq)) ?_
      rcases hs with hs | ⟨c, hw, hcq⟩
      · refine (Task.invariant_of_run hstill (lawful.body r) (fun p s₃ o s₄ ha ho hs₃ =>
          hmoment p s₃ o s₄ ha ho (.inl hs₃)) ?_).2 out s₂ hbody
        exact hP s s₁ (.enters hin) hs
      · obtain ⟨p, s₃, ha, hw⟩ :=
          ((within_computed hr hl hbegin c).1 hw).resolve_left (hother c hw hcq)
        obtain ⟨o, s₄, ho⟩ := Task.exists_of_asksAt hbody ha
        obtain ⟨rest, hk, hrun, hasks⟩ := Task.exists_rest (lawful.body r) hbody ha ho
        exact (Task.invariant_of_run hstill hk (fun p s₃ o s₄ ha ho hs₃ =>
          hmoment p s₃ o s₄ (hasks p s₃ ha) ho (.inl hs₃))
          (hmoment p s₃ o s₄ ha ho (.inr ⟨c, hw, hcq⟩))).2 out s₂ hrun

/-- So it does at the end of evaluations one after the other. -/
theorem holds_evaluateAll (lawful : rules.Lawful) {rs : List F.Request} {as : List (Answer F)}
    {s s' : State F}
    (hcall : ∀ c, rules.CallsIn n rs s c → c.request = q →
      ∀ o s₁, rules.answer c = .ok o s₁ → P s₁)
    (h : rules.evaluateAll n rs s = .ok as s')
    (hs : P s ∨ ∃ c, rules.CallsIn n rs s c ∧ c.request = q) : P s' := by
  induction rs generalizing s as with
  | nil =>
    cases h
    refine hs.resolve_right ?_
    rintro ⟨c, hc, -⟩
    exact hc
  | cons r rs ih =>
    obtain ⟨o, s₁, rest, ho, hrest, -⟩ := evaluateAll_cons.1 h
    simp only [callsIn_cons ho] at hcall hs
    have hfirst := holds_evaluate hP lawful (fun c hw => hcall c (.inl hw)) ho
    refine ih (fun c hc => hcall c (.inr hc)) hrest ?_
    rcases hs with hs | ⟨c, hw | hc, hcq⟩
    · exact .inl (hfirst (.inl hs))
    · exact .inl (hfirst (.inr ⟨c, hw, hcq⟩))
    · exact .inr ⟨c, hc, hcq⟩

end Holds

/-! ## What a run leads to -/

section Completes

variable {asks : F.Request → F.Request → Prop} {D : F.Request → Prop}
  (hcovers : ∀ r, (rules.body r).Covers (fun _ => True) (asks r))

include hcovers

/-- What passes to a request from all that it may ask for holds of every request that is asked for
in an evaluation without cycles, and of all that have a result afterwards, if it holds of all that
had a result before. -/
theorem completes_evaluate (lawful : rules.Lawful) {stack : List F.Request} {r : F.Request}
    {s s' : State F} {o : Outcome F r} (h : rules.evaluate n stack r s = .ok o s')
    (hno : ∀ c, rules.Within ⟨n, stack, r, s⟩ c → c.request ∉ c.stack)
    (hD : ∀ c, rules.Within ⟨n, stack, r, s⟩ c → (∀ q, asks c.request q → D q) → D c.request)
    (hs : ∀ q, s.served? q ≠ none → D q) :
    (∀ c, rules.Within ⟨n, stack, r, s⟩ c → D c.request) ∧ ∀ q, s'.served? q ≠ none → D q := by
  induction n generalizing stack r s s' with
  | zero => cases h
  | succ n ih =>
    rcases evaluate_cases h with ⟨hr, -⟩ | ⟨hr, out, hl, hserves, -⟩ |
      ⟨hr, hl, s₁, out, s₂, hbegin, hin, hbody, hout, -⟩
    · exact absurd hr (hno _ .refl)
    · constructor
      · intro c hc
        obtain rfl := (within_uncomputed (.inr (by rw [hl]; simp)) c).1 hc
        exact hs r (by rw [State.served?_of_lookup hl]; simp)
      · intro q hq
        rw [hserves.served? lawful] at hq
        exact hs q hq
    · have hwithin : ∀ q s₂ c,
          (rules.body r).AsksAt (rules.evaluate n (r :: stack)) (r :: stack) s₁ q s₂ →
          rules.Within ⟨n, r :: stack, q, s₂⟩ c → rules.Within ⟨n + 1, stack, r, s⟩ c :=
        fun q s₂ c ha hc => (within_computed hr hl hbegin c).2 (.inr ⟨q, s₂, ha, hc⟩)
      have hmoment : ∀ q s₃ o s₄,
          (rules.body r).AsksAt (rules.evaluate n (r :: stack)) (r :: stack) s₁ q s₃ →
          rules.evaluate n (r :: stack) q s₃ = .ok o s₄ → (∀ p, s₃.served? p ≠ none → D p) →
          (∀ c, rules.Within ⟨n, r :: stack, q, s₃⟩ c → D c.request) ∧
            ∀ p, s₄.served? p ≠ none → D p := fun q s₃ o s₄ ha ho =>
        ih ho (fun c hc => hno c (hwithin q s₃ c ha hc)) fun c hc => hD c (hwithin q s₃ c ha hc)
      obtain ⟨hasked, hend⟩ := Task.invariant_of_run (I := fun s => ∀ p, s.served? p ≠ none → D p)
        (fun s s' h hs p hp => hs p (by rw [← h.served? p]; exact hp)) (lawful.body r)
        (fun q s₃ o s₄ ha ho hs₃ => (hmoment q s₃ o s₄ ha ho hs₃).2)
        (fun p hp => hs p (by rw [← hin.served? p]; exact hp))
      have hcalled : ∀ q s₃ c,
          (rules.body r).AsksAt (rules.evaluate n (r :: stack)) (r :: stack) s₁ q s₃ →
          rules.Within ⟨n, r :: stack, q, s₃⟩ c → D c.request := by
        intro q s₃ c ha hc
        obtain ⟨o, s₄, ho⟩ := Task.exists_of_asksAt hbody ha
        exact (hmoment q s₃ o s₄ ha ho (hasked q s₃ ha)).1 c hc
      -- no answer is an error, so the body asks for all that it covers
      have hok : ∀ q s₃ o s₄,
          (rules.body r).AsksAt (rules.evaluate n (r :: stack)) (r :: stack) s₁ q s₃ →
          rules.evaluate n (r :: stack) q s₃ = .ok o s₄ → ∃ v, o = .ok v := by
        intro q s₃ o s₄ ha ho
        have hstack : q ∉ r :: stack := hno _ (hwithin q s₃ _ ha .refl)
        cases o with
        | ok v => exact ⟨v, rfl⟩
        | error e => exact absurd ((answers_of_evaluate lawful ho).error_iff.1 ⟨e, rfl⟩) hstack
      have hself : D r := by
        refine hD _ .refl fun q hq => ?_
        obtain ⟨s₃, ha⟩ := (hcovers r).exists_asksAt hbody hok hq
        exact hcalled q s₃ _ ha .refl
      constructor
      · intro c hc
        rcases (within_computed hr hl hbegin c).1 hc with rfl | ⟨q, s₃, ha, hc⟩
        · exact hself
        · exact hcalled q s₃ c ha hc
      · intro q hq
        by_cases hqr : q = r
        · rw [hqr]
          exact hself
        · rw [hout.served?_of_ne lawful hqr] at hq
          exact hend out s₂ hbody q hq

/-- So it does of all requests of evaluations one after the other. -/
theorem completes_evaluateAll (lawful : rules.Lawful) {rs : List F.Request}
    {as : List (Answer F)} {s s' : State F} (h : rules.evaluateAll n rs s = .ok as s')
    (hno : ∀ c, rules.CallsIn n rs s c → c.request ∉ c.stack)
    (hD : ∀ c, rules.CallsIn n rs s c → (∀ q, asks c.request q → D q) → D c.request)
    (hs : ∀ q, s.served? q ≠ none → D q) :
    (∀ c, rules.CallsIn n rs s c → D c.request) ∧ ∀ q, s'.served? q ≠ none → D q := by
  induction rs generalizing s as with
  | nil =>
    cases h
    exact ⟨fun c hc => hc.elim, hs⟩
  | cons r rs ih =>
    obtain ⟨o, s₁, rest, ho, hrest, -⟩ := evaluateAll_cons.1 h
    simp only [callsIn_cons ho] at hno hD ⊢
    obtain ⟨hfirst, hs₁⟩ := completes_evaluate hcovers lawful ho
      (fun c hc => hno c (.inl hc)) (fun c hc => hD c (.inl hc)) hs
    obtain ⟨hlater, hs'⟩ := ih hrest (fun c hc => hno c (.inr hc)) (fun c hc => hD c (.inr hc)) hs₁
    exact ⟨fun c hc => hc.elim (hfirst c) (hlater c), hs'⟩

end Completes

end Rules

/-! ## Nothing is kept that is not meant to be -/

/-- The cache and the records hold only what is kept in the engine and what has a scope of its own,
and the world is one of `W`. -/
structure State.Tidy (W : F.World → Prop) (s : State F) : Prop where
  result : ∀ q, F.inEngine q = false → s.result? q = none
  recorded : ∀ q, F.opensScope q = false → s.recorded? q = none
  world : W s.world

namespace State.Tidy

variable {rules : Rules F} {W : F.World → Prop} {s s' : State F}

theorem of_eq (h : s.Tidy W) (hc : s'.cache = s.cache)
    (hr : s'.recorder.recorded = s.recorder.recorded) (hw : W s'.world) : s'.Tidy W :=
  ⟨fun q hq => by rw [result?, hc]; exact h.result q hq,
    fun q hq => by rw [recorded?, hr]; exact h.recorded q hq, hw⟩

theorem leaves (h : s.Tidy W) {r : F.Request} {out : F.Output r} (hout : Leaves rules r out s s')
    (hw : W s'.world) : s'.Tidy W := by
  refine ⟨fun q hq => ?_, fun q hq => ?_, hw⟩
  · cases hr : F.inEngine r with
    | false =>
      rw [result?, hout.cache hr]
      exact h.result q hq
    | true =>
      have hne : q ≠ r := by
        rintro rfl
        rw [hq] at hr
        cases hr
      rw [hout.result_of_ne q hne]
      exact h.result q hq
  · cases hr : F.opensScope r with
    | false =>
      rw [recorded?, (hout.no_scope hr).1]
      exact h.recorded q hq
    | true =>
      have hne : q ≠ r := by
        rintro rfl
        rw [hq] at hr
        cases hr
      rw [hout.recorded_of_ne q hne]
      exact h.recorded q hq

end State.Tidy

section Tidy

variable {rules : Rules F} {W : F.World → Prop}

variable {p : (F.World → F.World) → Prop} (hp : ∀ change w, p change → W w → W (change w))

include hp

/-- A task whose visits keep the world one of `W` stays tidy if its answers do. -/
theorem Task.safe_tidy {before : F.Request → State F → Prop}
    {after : (q : F.Request) → State F → Outcome F q → State F → Prop} {stack : List F.Request}
    (hbefore : ∀ q s, s.Tidy W → before q s)
    (hafter : ∀ q s o s', after q s o s' → s'.Tidy W) {t : Task F α}
    (ht : t.Visits p) {s : State F} (hs : s.Tidy W) :
    t.Safe before after stack s fun _ s' => s'.Tidy W := by
  induction t generalizing s with
  | done a => exact hs
  | ask q next ih => exact ⟨hbefore q s hs, fun o s' ho => ih o (ht o) (hafter q s o s' ho)⟩
  | record ref next ih => exact ih ht (hs.of_eq rfl (Recorder.write_recorded _ _) hs.world)
  | report d next ih => exact ih ht (hs.of_eq rfl rfl hs.world)
  | isActive q next ih => exact fun b _ => ih b (ht b) hs
  | current next ih => exact ih _ (ht _) hs
  | log level text next ih => exact ih ht (hs.of_eq rfl rfl hs.world)
  | visit change next ih => exact ih _ (ht.2 _) (hs.of_eq rfl rfl (hp change s.world ht.1 hs.world))

variable (hbody : ∀ r, (rules.body r).Visits p)
  (htold : ∀ r out w, W w → W (rules.told r out w))
  (hstore : ∀ r out w, F.inStore r → W w → W (F.store r out w))

include hbody htold hstore

/-- Every evaluation leaves the state tidy. -/
def tidy : Discipline rules fun _ => True where
  before _ _ _ s := s.Tidy W
  after _ _ _ _ s' := s'.Tidy W
  exhausted _ := trivial
  faults _ := .inl fun _ _ => trivial
  cycle hb _ hc := hb.of_eq hc.cache (by rw [hc.recorder]) (by rw [hc.world]; exact hb.world)
  hit hb _ _ hs :=
    hb.of_eq hs.cache hs.recorded (by rw [hs.world]; exact htold _ _ _ hb.world)
  body := by
    intro n stack r s s₁ hb hr hnone hin
    have hs₁ : s₁.Tidy W :=
      hb.of_eq hin.cache hin.recorded (by rw [hin.world]; exact hb.world)
    refine (Task.safe_tidy hp (fun q s hs => hs) (fun q s o s' h => h.2) (hbody r) hs₁).mono ?_
    intro out s₂ hs₂ s' hout
    have htold₂ := htold r out s₂.world hs₂.world
    refine hs₂.leaves hout ?_
    rw [hout.world]
    split
    next hst => exact hstore r out _ hst htold₂
    next => exact htold₂

theorem Rules.tidy_evaluate (lawful : rules.Lawful) {n : Nat} {stack : List F.Request}
    {r : F.Request} {s s' : State F} {o : Outcome F r}
    (h : rules.evaluate n stack r s = .ok o s') (hs : s.Tidy W) : s'.Tidy W :=
  (((tidy hp hbody htold hstore).ends lawful n stack r s hs).of_ok h).2

end Tidy

end Demand
