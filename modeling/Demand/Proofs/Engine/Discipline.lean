import Demand.Proofs.Engine.Steps

/-!
# Disciplines: what holds before and after every evaluation

A discipline says what holds when a request is asked for and what holds when it is answered, and
shows it for the three ways of an answer: a cycle, a served result, and a computed one, whose body
may rely on the answers it gets (`Task.Safe`). Then every evaluation keeps it, at any depth:

    d.before n stack r s → Ends stops (rules.evaluate n stack r) s
      fun o s' => Answers stack r s o s' ∧ d.after stack r s o s'             (Discipline.ends)
    d.before c → rules.Makes c c' → d.before c'                               (Discipline.makes)

What every evaluation leaves as it is (`Persists`, `Frame`) comes with it. A discipline that allows
no stop shows that there is an answer.
-/

namespace Demand

variable {F : Family} {α β : Type}

/-! ## Stores that return what they were given -/

/-- The task changes nothing that the stores outside the engine hold. -/
def Task.Keeps : Task F α → Prop
  | .done _ => True
  | .ask _ next => ∀ o, (next o).Keeps
  | .record _ next => next.Keeps
  | .report _ next => next.Keeps
  | .isActive _ next => ∀ b, (next b).Keeps
  | .current next => ∀ r, (next r).Keeps
  | .log _ _ next => next.Keeps
  | .visit change next => (∀ q w, F.fetch q (change w) = F.fetch q w) ∧ ∀ w, (next w).Keeps

theorem Task.Keeps.bind {t : Task F α} {f : α → Task F β} (ht : t.Keeps) (hf : ∀ a, (f a).Keeps) :
    (t >>= f).Keeps := by
  show (t.bind f).Keeps
  induction t with
  | done a => exact hf a
  | ask q next ih => exact fun o => ih o (ht o)
  | record ref next ih => exact ih ht
  | report d next ih => exact ih ht
  | isActive q next ih => exact fun b => ih b (ht b)
  | current next ih => exact fun r => ih r (ht r)
  | log level text next ih => exact ih ht
  | visit change next ih => exact ⟨ht.1, fun w => ih w (ht.2 w)⟩

/-- Every change that the task makes to the world is one of these. -/
def Task.Visits (p : (F.World → F.World) → Prop) : Task F α → Prop
  | .done _ => True
  | .ask _ next => ∀ o, (next o).Visits p
  | .record _ next => next.Visits p
  | .report _ next => next.Visits p
  | .isActive _ next => ∀ b, (next b).Visits p
  | .current next => ∀ r, (next r).Visits p
  | .log _ _ next => next.Visits p
  | .visit change next => p change ∧ ∀ w, (next w).Visits p

theorem Task.Visits.bind {p : (F.World → F.World) → Prop} {t : Task F α} {f : α → Task F β}
    (ht : t.Visits p) (hf : ∀ a, (f a).Visits p) : (t >>= f).Visits p := by
  show (t.bind f).Visits p
  induction t with
  | done a => exact hf a
  | ask q next ih => exact fun o => ih o (ht o)
  | record ref next ih => exact ih ht
  | report d next ih => exact ih ht
  | isActive q next ih => exact fun b => ih b (ht b)
  | current next ih => exact fun r => ih r (ht r)
  | log level text next ih => exact ih ht
  | visit change next ih => exact ⟨ht.1, fun w => ih w (ht.2 w)⟩

/-- A store outside the engine returns what it was given last, or never anything, and only the
engine gives it results. -/
structure Rules.Lawful (rules : Rules F) : Prop where
  body : ∀ r, (rules.body r).Keeps
  sinkVisit : ∀ r out w q, F.fetch q (rules.sinkVisit r out w) = F.fetch q w
  fetch_store : ∀ r out w, F.fetch r (F.store r out w) = some out ∨ ∀ w', F.fetch r w' = none
  fetch_store_of_ne : ∀ r out w q, q ≠ r → F.fetch q (F.store r out w) = F.fetch q w

theorem Rules.Lawful.fetch_told {rules : Rules F} (lawful : rules.Lawful) (r : F.Request)
    (out : F.Output r) (w : F.World) (q : F.Request) :
    F.fetch q (rules.told r out w) = F.fetch q w := by
  unfold told
  split
  · exact lawful.sinkVisit r out w q
  · rfl

theorem State.served?_congr {s s' : State F} {q : F.Request} (hc : s'.result? q = s.result? q)
    (hw : F.fetch q s'.world = F.fetch q s.world) : s'.served? q = s.served? q := by
  unfold served?
  rw [hc, hw]

theorem Cycles.served? {stack : List F.Request} {r : F.Request} {s s' : State F}
    (h : Cycles stack r s s') (q : F.Request) : s'.served? q = s.served? q :=
  State.served?_congr (by rw [State.result?, h.cache]; rfl) (by rw [h.world])

theorem Enters.served? {stack : List F.Request} {r : F.Request} {s s' : State F}
    (h : Enters stack r s s') (q : F.Request) : s'.served? q = s.served? q :=
  State.served?_congr (by rw [State.result?, h.cache]; rfl) (by rw [h.world])

section

variable {rules : Rules F}

theorem Serves.served? (lawful : rules.Lawful) {stack : List F.Request} {r : F.Request}
    {out : F.Output r} {s s' : State F} (h : Serves rules stack r out s s') (q : F.Request) :
    s'.served? q = s.served? q :=
  State.served?_congr (by rw [State.result?, h.cache]; rfl)
    (by rw [h.world, lawful.fetch_told])

theorem Leaves.fetch_of_ne (lawful : rules.Lawful) {r : F.Request} {out : F.Output r}
    {s s' : State F} (h : Leaves rules r out s s') {q : F.Request} (hq : q ≠ r) :
    F.fetch q s'.world = F.fetch q s.world := by
  rw [h.world]
  split
  · rw [lawful.fetch_store_of_ne _ _ _ _ hq, lawful.fetch_told]
  · rw [lawful.fetch_told]

theorem Leaves.served?_of_ne (lawful : rules.Lawful) {r : F.Request} {out : F.Output r}
    {s s' : State F} (h : Leaves rules r out s s') {q : F.Request} (hq : q ≠ r) :
    s'.served? q = s.served? q :=
  State.served?_congr (h.result_of_ne q hq) (h.fetch_of_ne lawful hq)

/-- A result that is served after it was computed is the computed one. -/
theorem Leaves.served?_self (lawful : rules.Lawful) {r : F.Request} {out out' : F.Output r}
    {s s' : State F} (h : Leaves rules r out s s') (hs : s'.served? r = some out') :
    out' = out := by
  unfold State.served? at hs
  by_cases he : F.inEngine r
  · rw [if_pos he, h.result_self he] at hs
    exact (Option.some.inj hs).symm
  · rw [if_neg he] at hs
    by_cases hst : F.inStore r
    · rw [if_pos hst, h.world, if_pos hst] at hs
      rcases lawful.fetch_store r out (rules.told r out s.world) with hf | hf
      · rw [hf] at hs
        exact (Option.some.inj hs).symm
      · rw [hf] at hs
        cases hs
    · rw [if_neg hst] at hs
      cases hs

end

/-! ## What every evaluation leaves as it is -/

/-- What an evaluation under these active requests leaves as it is, apart from the scopes: results
that are served are served on, with the same records, and an active request gets neither result nor
record. -/
structure Persists (stack : List F.Request) (s s' : State F) : Prop where
  options : s'.options = s.options
  registry : s'.registry = s.registry
  served : ∀ q v, s.served? q = some v → s'.served? q = some v
  served_active : ∀ q ∈ stack, s'.served? q = s.served? q
  recorded : ∀ q v, s.served? q = some v → s'.recorded? q = s.recorded? q
  recorded_active : ∀ q ∈ stack, s'.recorded? q = s.recorded? q
  filed : ∀ f ref, ref ∈ s.recorder.filed f → ref ∈ s'.recorder.filed f
  cache_owned : s.cache.Owned s.registry.knows → s'.cache.Owned s'.registry.knows
  recorded_owned : s.recorder.recorded.Owned s.registry.knows →
    s'.recorder.recorded.Owned s'.registry.knows

namespace Persists

variable {stack : List F.Request} {s s' s'' : State F}

theorem refl (s : State F) : Persists stack s s :=
  ⟨rfl, rfl, fun _ _ h => h, fun _ _ => rfl, fun _ _ _ => rfl, fun _ _ => rfl, fun _ _ h => h,
    fun h => h, fun h => h⟩

theorem trans (h : Persists stack s s') (h' : Persists stack s' s'') : Persists stack s s'' where
  options := h'.options.trans h.options
  registry := h'.registry.trans h.registry
  served q v hv := h'.served q v (h.served q v hv)
  served_active q hq := (h'.served_active q hq).trans (h.served_active q hq)
  recorded q v hv := (h'.recorded q v (h.served q v hv)).trans (h.recorded q v hv)
  recorded_active q hq := (h'.recorded_active q hq).trans (h.recorded_active q hq)
  filed f ref hr := h'.filed f ref (h.filed f ref hr)
  cache_owned hs := h'.cache_owned (h.cache_owned hs)
  recorded_owned hs := h'.recorded_owned (h.recorded_owned hs)

theorem of_subset {stack' : List F.Request} (h : Persists stack s s')
    (hsub : ∀ q ∈ stack', q ∈ stack) : Persists stack' s s' :=
  { h with
    served_active := fun q hq => h.served_active q (hsub q hq)
    recorded_active := fun q hq => h.recorded_active q (hsub q hq) }

theorem owned (h : Persists stack s s') (hs : s.Owned) : s'.Owned :=
  ⟨h.cache_owned hs.1, h.recorded_owned hs.2⟩

/-- Where the cache, the records and the stores are the same, everything persists. -/
theorem of_eq (ho : s'.options = s.options) (hr : s'.registry = s.registry)
    (hc : s'.cache = s.cache) (hrec : s'.recorder.recorded = s.recorder.recorded)
    (hw : ∀ q, F.fetch q s'.world = F.fetch q s.world)
    (hf : ∀ f ref, ref ∈ s.recorder.filed f → ref ∈ s'.recorder.filed f) :
    Persists stack s s' := by
  have hserved : ∀ q, s'.served? q = s.served? q := fun q =>
    State.served?_congr (by rw [State.result?, hc]; rfl) (hw q)
  have hrecorded : ∀ q, s'.recorded? q = s.recorded? q := fun q => by
    rw [State.recorded?, hrec]; rfl
  exact ⟨ho, hr, fun q v hv => (hserved q).trans hv, fun q _ => hserved q,
    fun q _ _ => hrecorded q, fun q _ => hrecorded q, hf, by rw [hc, hr]; exact id,
    by rw [hrec, hr]; exact id⟩

end Persists

/-- What an evaluation under these active requests leaves as it is. -/
structure Frame (stack : List F.Request) (s s' : State F) : Prop extends Persists stack s s' where
  scopes : ∃ refs, Grown refs s.recorder.scopes s'.recorder.scopes

namespace Frame

variable {stack : List F.Request} {s s' s'' : State F}

theorem refl (s : State F) : Frame stack s s :=
  ⟨.refl s, fun _ => False, .rfl fun _ h => h⟩

theorem trans (h : Frame stack s s') (h' : Frame stack s' s'') : Frame stack s s'' := by
  obtain ⟨p, hp⟩ := h.scopes
  obtain ⟨q, hq⟩ := h'.scopes
  exact ⟨h.toPersists.trans h'.toPersists, _, hp.trans hq⟩

end Frame

/-- What the steps of a task other than asking leave as it is. -/
structure Still (s s' : State F) : Prop where
  options : s'.options = s.options
  registry : s'.registry = s.registry
  cache : s'.cache = s.cache
  recorded : s'.recorder.recorded = s.recorder.recorded
  filed : s'.recorder.filed = s.recorder.filed
  statistics : s'.statistics = s.statistics
  fetch : ∀ q, F.fetch q s'.world = F.fetch q s.world
  scopes : ∃ refs, Grown refs s.recorder.scopes s'.recorder.scopes

namespace Still

theorem refl (s : State F) : Still s s :=
  ⟨rfl, rfl, rfl, rfl, rfl, rfl, fun _ => rfl, _, .rfl fun _ h => h⟩

theorem trans {s s' s'' : State F} (h : Still s s') (h' : Still s' s'') : Still s s'' := by
  obtain ⟨p, hp⟩ := h.scopes
  obtain ⟨q, hq⟩ := h'.scopes
  exact ⟨h'.options.trans h.options, h'.registry.trans h.registry, h'.cache.trans h.cache,
    h'.recorded.trans h.recorded, h'.filed.trans h.filed, h'.statistics.trans h.statistics,
    fun r => (h'.fetch r).trans (h.fetch r), _, hp.trans hq⟩

theorem record (s : State F) (ref : Reference) :
    Still s { s with recorder := s.recorder.write [ref] } :=
  ⟨rfl, rfl, rfl, Recorder.write_recorded _ _, Recorder.write_filed _ _, rfl, fun _ => rfl, _,
    Grown.write _ _⟩

theorem report (s : State F) (d : Diagnostic) :
    Still s { s with diagnostics := s.diagnostics.report d } :=
  ⟨rfl, rfl, rfl, rfl, rfl, rfl, fun _ => rfl, _, .rfl fun _ h => h⟩

theorem log (s : State F) (level : LogLevel) (text : String) :
    Still s { s with log := s.log.write level text } :=
  ⟨rfl, rfl, rfl, rfl, rfl, rfl, fun _ => rfl, _, .rfl fun _ h => h⟩

theorem visit (s : State F) {change : F.World → F.World}
    (h : ∀ q w, F.fetch q (change w) = F.fetch q w) :
    Still s { s with world := change s.world } :=
  ⟨rfl, rfl, rfl, rfl, rfl, rfl, fun q => h q s.world, _, .rfl fun _ h => h⟩

variable {s s' : State F}

theorem served? (h : Still s s') (q : F.Request) : s'.served? q = s.served? q :=
  State.served?_congr (by rw [State.result?, h.cache]; rfl) (h.fetch q)

theorem frame {stack : List F.Request} (h : Still s s') : Frame stack s s' :=
  ⟨.of_eq h.options h.registry h.cache h.recorded h.fetch
    fun f ref hr => by rw [h.filed]; exact hr, h.scopes⟩

end Still

theorem Cycles.frame {stack : List F.Request} {r : F.Request} {s s' : State F}
    (h : Cycles stack r s s') : Frame stack s s' := by
  refine ⟨.of_eq h.options h.registry h.cache (by rw [h.recorder]) (fun q => by rw [h.world])
    (fun f ref => by rw [h.recorder]; exact id), fun _ => False, ?_⟩
  rw [h.recorder]
  exact .rfl fun _ hf => hf

theorem Serves.frame {rules : Rules F} (lawful : rules.Lawful) {stack : List F.Request}
    {r : F.Request} {out : F.Output r} {s s' : State F} (h : Serves rules stack r out s s') :
    Frame stack s s' :=
  ⟨.of_eq h.options h.registry h.cache h.recorded
    (fun q => by rw [h.world, lawful.fetch_told]) fun f ref hr => (h.filed f ref).2 (Or.inl hr),
    _, h.scopes⟩

theorem Enters.persists {stack stack' : List F.Request} {r : F.Request} {s s₁ : State F}
    (h : Enters stack r s s₁) : Persists stack' s s₁ :=
  .of_eq h.options h.registry h.cache h.recorded (fun q => by rw [h.world])
    fun f ref hr => by rw [h.filed]; exact hr

/-- What a body writes goes to the scope around it, whether it has a scope of its own or not. -/
theorem Leaves.scopes {rules : Rules F} {stack : List F.Request} {r : F.Request}
    {out : F.Output r} {s s₁ s₂ s' : State F} {refs : Reference → Prop}
    (hout : Leaves rules r out s₂ s') (hin : Enters stack r s s₁)
    (hbody : Grown refs s₁.recorder.scopes s₂.recorder.scopes) :
    Grown (fun ref => refs ref ∨ rules.Sinks r out ref) s.recorder.scopes s'.recorder.scopes := by
  rw [hin.scopes] at hbody
  by_cases ho : F.opensScope r
  · obtain ⟨scope, outer, hs, -, hg⟩ := hout.own_scope ho
    rw [if_pos ho, hs] at hbody
    cases hbody with
    | opened hscope =>
      refine hg.congr fun ref => ?_
      rw [hscope]
      simp
  · obtain ⟨-, hg⟩ := hout.no_scope (by simpa using ho)
    rw [if_neg ho] at hbody
    exact hbody.trans hg

/-- A scope of its own records what the body writes. -/
theorem Leaves.records {rules : Rules F} {stack : List F.Request} {r : F.Request}
    {out : F.Output r} {s s₁ s₂ s' : State F} {refs : Reference → Prop}
    (hout : Leaves rules r out s₂ s') (hin : Enters stack r s s₁)
    (hbody : Grown refs s₁.recorder.scopes s₂.recorder.scopes) (ho : F.opensScope r)
    (ref : Reference) : s'.Records r ref ↔ refs ref := by
  obtain ⟨scope, outer, hs, hrec, -⟩ := hout.own_scope ho
  rw [hin.scopes, if_pos ho, hs] at hbody
  cases hbody with
  | opened hscope =>
    have hmem := hscope ref
    rw [State.Records, hrec]
    split
    next h => simpa [h] using hmem
    next => simpa using hmem

/-- A computation under the active requests keeps what its body keeps under one more. -/
theorem Leaves.frame {rules : Rules F} (lawful : rules.Lawful) {stack : List F.Request}
    {r : F.Request} {out : F.Output r} {s s₁ s₂ s' : State F} (hr : r ∉ stack)
    (hnone : s.served? r = none) (hin : Enters stack r s s₁) (hbody : Frame (r :: stack) s₁ s₂)
    (hout : Leaves rules r out s₂ s') : Frame stack s s' := by
  have hp : Persists (r :: stack) s s₂ := hin.persists.trans hbody.toPersists
  have hknown : s₂.registry.knows (F.kind r) := by rw [hp.registry]; exact hin.known
  have hne : ∀ q v, s.served? q = some v → q ≠ r := by
    rintro q v hv rfl
    rw [hnone] at hv
    cases hv
  have hne' : ∀ q ∈ stack, q ≠ r := by
    rintro q hq rfl
    exact hr hq
  constructor
  · constructor
    case options => exact hout.options.trans hp.options
    case registry => exact hout.registry.trans hp.registry
    case served =>
      intro q v hv
      rw [hout.served?_of_ne lawful (hne q v hv)]
      exact hp.served q v hv
    case served_active =>
      intro q hq
      rw [hout.served?_of_ne lawful (hne' q hq)]
      exact hp.served_active q (List.mem_cons_of_mem r hq)
    case recorded =>
      intro q v hv
      rw [hout.recorded_of_ne q (hne q v hv)]
      exact hp.recorded q v hv
    case recorded_active =>
      intro q hq
      rw [hout.recorded_of_ne q (hne' q hq)]
      exact hp.recorded_active q (List.mem_cons_of_mem r hq)
    case filed => exact fun f ref hf => (hout.filed f ref).2 (Or.inl (hp.filed f ref hf))
    case cache_owned => exact fun hs => hout.cache_owned (hp.cache_owned hs) hknown
    case recorded_owned => exact fun hs => hout.recorded_owned (hp.recorded_owned hs) hknown
  · obtain ⟨refs, hgrown⟩ := hbody.scopes
    exact ⟨_, hout.scopes hin hgrown⟩

/-- What the answer to a request says in any case: it is an error if the request is active, and a
result that is kept in the engine is there afterwards. -/
structure Answers (stack : List F.Request) (r : F.Request) (s : State F) (o : Outcome F r)
    (s' : State F) : Prop extends Frame stack s s' where
  error_iff : (∃ c, o = .error c) ↔ r ∈ stack
  kept : ∀ out, o = .ok out → F.inEngine r → s'.served? r = some out

/-! ## Tasks that rely on the answers they get -/

namespace Task

/-- Every request that the task can ask for is one of these. -/
def Asks (p : F.Request → Prop) : Task F α → Prop
  | .done _ => True
  | .ask q next => p q ∧ ∀ o, (next o).Asks p
  | .record _ next => next.Asks p
  | .report _ next => next.Asks p
  | .isActive _ next => ∀ b, (next b).Asks p
  | .current next => ∀ r, (next r).Asks p
  | .log _ _ next => next.Asks p
  | .visit _ next => ∀ w, (next w).Asks p

theorem Asks.bind {p : F.Request → Prop} {t : Task F α} {f : α → Task F β} (ht : t.Asks p)
    (hf : ∀ a, (f a).Asks p) : (t >>= f).Asks p := by
  show (t.bind f).Asks p
  induction t with
  | done a => exact hf a
  | ask q next ih => exact ⟨ht.1, fun o => ih o (ht.2 o)⟩
  | record ref next ih => exact ih ht
  | report d next ih => exact ih ht
  | isActive q next ih => exact fun b => ih b (ht b)
  | current next ih => exact fun r => ih r (ht r)
  | log level text next ih => exact ih ht
  | visit change next ih => exact fun w => ih w (ht w)

theorem asks_any (t : Task F α) : t.Asks fun _ => True := by
  induction t with
  | done a => trivial
  | ask q next ih => exact ⟨trivial, ih⟩
  | record ref next ih => exact ih
  | report d next ih => exact ih
  | isActive q next ih => exact ih
  | current next ih => exact ih
  | log level text next ih => exact ih
  | visit change next ih => exact ih

/-- The task run from `s` for the innermost of the active requests asks only where `before` holds,
and `Q` holds of its result and the state at its end, if every answer is as `after` says. -/
def Safe (before : F.Request → State F → Prop)
    (after : (q : F.Request) → State F → Outcome F q → State F → Prop) (stack : List F.Request) :
    Task F α → State F → (α → State F → Prop) → Prop
  | .done a, s, Q => Q a s
  | .ask q next, s, Q => before q s ∧ ∀ o s', after q s o s' → (next o).Safe before after stack s' Q
  | .record ref next, s, Q =>
    next.Safe before after stack { s with recorder := s.recorder.write [ref] } Q
  | .report d next, s, Q =>
    next.Safe before after stack { s with diagnostics := s.diagnostics.report d } Q
  | .isActive q next, s, Q =>
    ∀ b : Bool, (b = true ↔ q ∈ stack) → (next b).Safe before after stack s Q
  | .current next, s, Q => (next stack.head?).Safe before after stack s Q
  | .log level text next, s, Q =>
    next.Safe before after stack { s with log := s.log.write level text } Q
  | .visit change next, s, Q =>
    (next s.world).Safe before after stack { s with world := change s.world } Q

variable {before : F.Request → State F → Prop}
  {after : (q : F.Request) → State F → Outcome F q → State F → Prop} {stack : List F.Request}
  {stops : Stop F → Prop} {evaluate : (r : F.Request) → Eval F (Outcome F r)}

theorem safe_bind (t : Task F α) (f : α → Task F β) {s : State F} {Q : β → State F → Prop} :
    (t >>= f).Safe before after stack s Q ↔
      t.Safe before after stack s fun a s' => (f a).Safe before after stack s' Q := by
  show (t.bind f).Safe before after stack s Q ↔ _
  induction t generalizing s with
  | done a => rfl
  | ask q next ih =>
    simp only [bind, Safe]
    exact and_congr_right fun _ => forall_congr' fun o => forall_congr' fun s' =>
      imp_congr_right fun _ => ih o
  | record ref next ih => exact ih
  | report d next ih => exact ih
  | isActive q next ih =>
    exact forall_congr' fun b => imp_congr_right fun _ => ih b
  | current next ih => exact ih _
  | log level text next ih => exact ih
  | visit change next ih => exact ih _

theorem Safe.mono {t : Task F α} {s : State F} {Q Q' : α → State F → Prop}
    (h : t.Safe before after stack s Q) (hQ : ∀ a s', Q a s' → Q' a s') :
    t.Safe before after stack s Q' := by
  induction t generalizing s with
  | done a => exact hQ a s h
  | ask q next ih => exact ⟨h.1, fun o s' ho => ih o (h.2 o s' ho)⟩
  | record ref next ih => exact ih h
  | report d next ih => exact ih h
  | isActive q next ih => exact fun b hb => ih b (h b hb)
  | current next ih => exact ih _ h
  | log level text next ih => exact ih h
  | visit change next ih => exact ih _ h

theorem Safe.bind {t : Task F α} {f : α → Task F β} {s : State F} {P : α → State F → Prop}
    {Q : β → State F → Prop} (ht : t.Safe before after stack s P)
    (hf : ∀ a s', P a s' → (f a).Safe before after stack s' Q) :
    (t >>= f).Safe before after stack s Q :=
  (safe_bind t f).2 (ht.mono hf)

/-- A safe task keeps what every answer keeps. -/
theorem Safe.frame {t : Task F α} {s : State F} {Q : α → State F → Prop}
    (h : t.Safe before after stack s Q) (hk : t.Keeps)
    (hframe : ∀ q s o s', after q s o s' → Frame stack s s') :
    t.Safe before after stack s fun a s' => Frame stack s s' ∧ Q a s' := by
  induction t generalizing s with
  | done a => exact ⟨.refl s, h⟩
  | ask q next ih =>
    refine ⟨h.1, fun o s' ho => ?_⟩
    exact (ih o (h.2 o s' ho) (hk o)).mono fun a s'' hs =>
      ⟨(hframe q s o s' ho).trans hs.1, hs.2⟩
  | record ref next ih =>
    exact (ih h hk).mono fun a s' hs => ⟨(Still.record s ref).frame.trans hs.1, hs.2⟩
  | report d next ih =>
    exact (ih h hk).mono fun a s' hs => ⟨(Still.report s d).frame.trans hs.1, hs.2⟩
  | isActive q next ih => exact fun b hb => ih b (h b hb) (hk b)
  | current next ih => exact ih _ h (hk _)
  | log level text next ih =>
    exact (ih h hk).mono fun a s' hs => ⟨(Still.log s level text).frame.trans hs.1, hs.2⟩
  | visit change next ih =>
    exact (ih _ h (hk.2 _)).mono fun a s' hs => ⟨(Still.visit s hk.1).frame.trans hs.1, hs.2⟩

/-- A task keeps what every answer and every step of its own keeps. -/
theorem safe_invariant {I : State F → Prop} {p : F.Request → Prop}
    (hstill : ∀ s s', Still s s' → I s → I s') (hbefore : ∀ q s, p q → I s → before q s)
    (hafter : ∀ q s o s', p q → I s → after q s o s' → I s') {t : Task F α} (ht : t.Asks p)
    (hk : t.Keeps) {s : State F} (hs : I s) :
    t.Safe before after stack s fun _ s' => I s' := by
  induction t generalizing s with
  | done a => exact hs
  | ask q next ih =>
    exact ⟨hbefore q s ht.1 hs, fun o s' ho =>
      ih o (ht.2 o) (hk o) (hafter q s o s' ht.1 hs ho)⟩
  | record ref next ih => exact ih ht hk (hstill _ _ (Still.record s ref) hs)
  | report d next ih => exact ih ht hk (hstill _ _ (Still.report s d) hs)
  | isActive q next ih => exact fun b _ => ih b (ht b) (hk b) hs
  | current next ih => exact ih _ (ht _) (hk _) hs
  | log level text next ih => exact ih ht hk (hstill _ _ (Still.log s level text) hs)
  | visit change next ih => exact ih _ (ht _) (hk.2 _) (hstill _ _ (Still.visit s hk.1) hs)

theorem ends_run
    (hev : ∀ q s, before q s → Eval.Ends stops (evaluate q) s fun o s' => after q s o s')
    (t : Task F α) {s : State F} {Q : α → State F → Prop} (h : t.Safe before after stack s Q) :
    Eval.Ends stops (t.run evaluate stack) s Q := by
  induction t generalizing s with
  | done a => exact h
  | ask q next ih =>
    rw [run, Eval.ends_bind]
    exact (hev q s h.1).mono fun o s' ho => ih o (h.2 o s' ho)
  | record ref next ih =>
    rw [run, Eval.ends_bind]
    exact ih h
  | report d next ih =>
    rw [run, Eval.ends_bind]
    exact ih h
  | isActive q next ih => exact ih _ (h _ decide_eq_true_iff)
  | current next ih => exact ih _ h
  | log level text next ih =>
    rw [run, Eval.ends_bind]
    exact ih h
  | visit change next ih =>
    rw [run, Eval.ends_bind]
    exact ih _ h

end Task

/-! ## Disciplines -/

/-- What holds before and after every evaluation, and why. -/
structure Discipline (rules : Rules F) (stops : Stop F → Prop) where
  /-- What holds when a request is asked for, with this fuel and under these active requests. -/
  before : Nat → List F.Request → F.Request → State F → Prop
  /-- What holds when it is answered. -/
  after : List F.Request → (r : F.Request) → State F → Outcome F r → State F → Prop
  exhausted : ∀ {stack r s}, before 0 stack r s → stops .exhausted
  faults : ∀ {n stack r s}, before n stack r s →
    Eval.Lenient stops ∨ s.Owned ∧ s.registry.knows (F.kind r)
  cycle : ∀ {n stack r s s'}, before (n + 1) stack r s → r ∈ stack → Cycles stack r s s' →
    after stack r s (.error ⟨r⟩) s'
  hit : ∀ {n stack r s out s'}, before (n + 1) stack r s → r ∉ stack → s.served? r = some out →
    Serves rules stack r out s s' → after stack r s (.ok out) s'
  body : ∀ {n stack r s s₁}, before (n + 1) stack r s → r ∉ stack → s.served? r = none →
    Enters stack r s s₁ →
    (rules.body r).Safe (before n (r :: stack))
      (fun q s o s' => Answers (r :: stack) q s o s' ∧ after (r :: stack) q s o s') (r :: stack) s₁
      fun out s₂ => ∀ s', Leaves rules r out s₂ s' → after stack r s (.ok out) s'

namespace Discipline

variable {rules : Rules F} {stops : Stop F → Prop} (d : Discipline rules stops)

/-- The state in which a body ends is one in which its scope can be closed and its result kept. -/
theorem ends_finish {n : Nat} {stack : List F.Request} {r : F.Request} {s s₁ s₂ : State F}
    (hb : d.before n stack r s) (hnone : s.served? r = none) (hin : Enters stack r s s₁)
    (hbody : Frame (r :: stack) s₁ s₂) (out : F.Output r) :
    Eval.Ends stops (rules.finish r out) s₂ fun _ s' => Leaves rules r out s₂ s' := by
  have hp : Persists (r :: stack) s s₂ := hin.persists.trans hbody.toPersists
  have hscope : F.opensScope r → s₂.recorder.scopes ≠ [] := by
    intro ho hnil
    obtain ⟨refs, hgrown⟩ := hbody.scopes
    rw [hin.scopes, if_pos ho, hnil] at hgrown
    cases hgrown
  have hempty : F.inEngine r → s₂.result? r = none := by
    intro he
    have hs := hp.served_active r List.mem_cons_self
    rw [hnone] at hs
    simpa [State.served?, he] using hs
  refine Rules.ends_finish ((d.faults hb).imp id ?_) (.inr hempty)
  rintro ⟨hown, hknown⟩
  exact ⟨hp.owned hown, by rw [hp.registry]; exact hknown, hscope⟩

/-- Every evaluation keeps the discipline. -/
theorem ends (lawful : rules.Lawful) (n : Nat) (stack : List F.Request) (r : F.Request)
    (s : State F) (hb : d.before n stack r s) :
    Eval.Ends stops (rules.evaluate n stack r) s
      fun o s' => Answers stack r s o s' ∧ d.after stack r s o s' := by
  -- one level of fuel for each request that becomes active
  induction n generalizing stack r s with
  | zero => exact d.exhausted hb
  | succ n ih =>
    refine Eval.Ends.congr ?_ (Rules.evaluate_succ rules n stack r s)
    by_cases hr : r ∈ stack
    · rw [if_pos hr]
      refine Eval.Ends.mono (Rules.ends_cycle (r := r)) ?_
      rintro o s' ⟨rfl, hc⟩
      exact ⟨⟨hc.frame, by simp [hr], by simp⟩, d.cycle hb hr hc⟩
    · rw [if_neg hr]
      have hlookup : Eval.Lenient stops ∨ s.lookup r = .ok (s.served? r) :=
        (d.faults hb).imp id fun h => State.lookup_eq h.1 h.2
      cases hl : s.lookup r with
      | error f =>
        rcases hlookup with hf | h
        · exact Eval.ends_bind.2 (Eval.ends_recordEdge.2 (hf f (State.lookup_error hl)))
        · rw [hl] at h; cases h
      | ok v =>
        have hv := State.served?_of_lookup hl
        cases v with
        | some out =>
          refine Eval.Ends.bind (Rules.ends_serve ?_) fun _ s' hs => ?_
          · exact (d.faults hb).imp id fun h =>
              ⟨_, Tables.get?_eq h.1.2 Registry.knows_injective h.2⟩
          · refine ⟨⟨hs.frame lawful, by simp [hr], ?_⟩, d.hit hb hr hv hs⟩
            rintro out' ⟨⟩ -
            rw [hs.served? lawful, hv]
        | none =>
          refine Eval.Ends.bind (Rules.ends_begin ?_) fun _ s₁ hin => ?_
          · exact (d.faults hb).imp id fun h => h.2
          have hsafe := (d.body hb hr hv hin).frame (lawful.body r) fun _ _ _ _ h => h.1.toFrame
          refine (Task.ends_run (fun q s => ih (r :: stack) q s) _ hsafe).bind
            fun out s₂ ⟨hframe, hafter⟩ => ?_
          refine (d.ends_finish hb hv hin hframe out).bind fun _ s' hout => ?_
          refine ⟨⟨hout.frame lawful hr hv hin hframe, by simp [hr], ?_⟩, hafter s' hout⟩
          rintro out' ⟨⟩ he
          rw [State.served?, if_pos he, hout.result_self he]

end Discipline

end Demand
