import Demand.Proofs.Engine.Commands

/-!
# Plain recursion, and the engine that remembers

The plain evaluator computes every request each time it is asked for. It has no cache, no active
requests and no scopes; it collects what a computation writes and reports (`Trace`). A request is
grounded if no request that it leads to leads to itself. The engine answers a grounded request with
the result of the plain evaluator and writes the references that the plain evaluator collects,
whatever is computed and whatever is served on the way (`memo`).
-/

namespace Demand

variable {F : Family} {α β : Type}

/-! ## The plain evaluator -/

/-- What a computation gives when nothing is kept: its result, the references that are written
and the diagnostics that are reported, those of the requests it asks for included. -/
structure Trace (α : Type) where
  result : α
  references : List Reference := []
  diagnostics : List Diagnostic := []

namespace Rules

variable (rules : Rules F)

/-- The references that a result writes to whoever asks for it. -/
def sinkOf (r : F.Request) (out : F.Output r) : List Reference :=
  if (F.policyOf r).isSink then rules.sinkReferences r out else []

theorem mem_sinkOf {r : F.Request} {out : F.Output r} {ref : Reference} :
    ref ∈ rules.sinkOf r out ↔ rules.Sinks r out ref := by
  unfold sinkOf Sinks
  split <;> simp_all

/-- Runs a task for a request. Nothing is active but what it computes. -/
def runPlain (evaluate : (r : F.Request) → F.World → Option (Trace (F.Output r) × F.World))
    (self : F.Request) : Task F α → F.World → Option (Trace α × F.World)
  | .done a, w => some (⟨a, [], []⟩, w)
  | .ask q next, w => do
    let (t, w) ← evaluate q w
    let (t', w) ← runPlain evaluate self (next (.ok t.result)) (rules.told q t.result w)
    return (⟨t'.result, t.references ++ rules.sinkOf q t.result ++ t'.references,
      t.diagnostics ++ t'.diagnostics⟩, w)
  | .record ref next, w => do
    let (t, w) ← runPlain evaluate self next w
    return ({ t with references := ref :: t.references }, w)
  | .report d next, w => do
    let (t, w) ← runPlain evaluate self next w
    return ({ t with diagnostics := d :: t.diagnostics }, w)
  | .isActive _ next, w => runPlain evaluate self (next false) w
  | .current next, w => runPlain evaluate self (next (some self)) w
  | .log _ _ next, w => runPlain evaluate self next w
  | .visit change next, w => runPlain evaluate self (next w) (change w)

/-- The plain recursive evaluator: each level of nested requests takes one unit of `fuel`. -/
def plain : (fuel : Nat) → (r : F.Request) → F.World → Option (Trace (F.Output r) × F.World)
  | 0, _, _ => none
  | n + 1, r, w => rules.runPlain (plain n) r (rules.body r) w

/-- Plain recursion gives the trace, in any world and however much fuel there is from some amount
on. -/
def Traces (r : F.Request) (t : Trace (F.Output r)) : Prop :=
  ∃ n, ∀ m, n ≤ m → ∀ w, ∃ w', rules.plain m r w = some (t, w')

/-- The same for a task of a request. -/
def TracesTask (self : F.Request) (task : Task F α) (t : Trace α) : Prop :=
  ∃ n, ∀ m, n ≤ m → ∀ w, ∃ w', rules.runPlain (rules.plain m) self task w = some (t, w')

variable {rules}

/-- There is one trace of a request at most. -/
theorem Traces.unique {r : F.Request} {t t' : Trace (F.Output r)} (h : rules.Traces r t)
    (h' : rules.Traces r t') (w : F.World) : t = t' := by
  obtain ⟨n, hn⟩ := h
  obtain ⟨n', hn'⟩ := h'
  obtain ⟨w₁, hw⟩ := hn (max n n') (Nat.le_max_left n n') w
  obtain ⟨w₂, hw'⟩ := hn' (max n n') (Nat.le_max_right n n') w
  rw [hw] at hw'
  cases hw'
  rfl

theorem traces_of_body {r : F.Request} {t : Trace (F.Output r)}
    (h : rules.TracesTask r (rules.body r) t) : rules.Traces r t := by
  obtain ⟨n, hn⟩ := h
  refine ⟨n + 1, fun m hm w => ?_⟩
  obtain ⟨k, rfl⟩ : ∃ k, m = k + 1 := ⟨m - 1, by omega⟩
  exact hn k (by omega) w

theorem tracesTask_done (self : F.Request) (a : α) : rules.TracesTask self (.done a) ⟨a, [], []⟩ :=
  ⟨0, fun _ _ w => ⟨w, rfl⟩⟩

theorem tracesTask_ask {self q : F.Request} {next : Outcome F q → Task F α}
    {t : Trace (F.Output q)} {t' : Trace α} (ht : rules.Traces q t)
    (ht' : rules.TracesTask self (next (.ok t.result)) t') :
    rules.TracesTask self (.ask q next) ⟨t'.result,
      t.references ++ rules.sinkOf q t.result ++ t'.references,
      t.diagnostics ++ t'.diagnostics⟩ := by
  obtain ⟨n, hn⟩ := ht
  obtain ⟨n', hn'⟩ := ht'
  refine ⟨max n n', fun m hm w => ?_⟩
  obtain ⟨w₁, h₁⟩ := hn m (by omega) w
  obtain ⟨w₂, h₂⟩ := hn' m (by omega) (rules.told q t.result w₁)
  exact ⟨w₂, by simp [runPlain, h₁, h₂]⟩

theorem tracesTask_record {self : F.Request} {ref : Reference} {next : Task F α} {t : Trace α}
    (h : rules.TracesTask self next t) :
    rules.TracesTask self (.record ref next) { t with references := ref :: t.references } := by
  obtain ⟨n, hn⟩ := h
  refine ⟨n, fun m hm w => ?_⟩
  obtain ⟨w', hw⟩ := hn m hm w
  exact ⟨w', by simp [runPlain, hw]⟩

theorem tracesTask_report {self : F.Request} {d : Diagnostic} {next : Task F α} {t : Trace α}
    (h : rules.TracesTask self next t) :
    rules.TracesTask self (.report d next) { t with diagnostics := d :: t.diagnostics } := by
  obtain ⟨n, hn⟩ := h
  refine ⟨n, fun m hm w => ?_⟩
  obtain ⟨w', hw⟩ := hn m hm w
  exact ⟨w', by simp [runPlain, hw]⟩

theorem tracesTask_visit {self : F.Request} {change : F.World → F.World}
    {next : F.World → Task F α} {t : Trace α} {w₀ : F.World} (hnext : ∀ w, next w = next w₀)
    (h : rules.TracesTask self (next w₀) t) : rules.TracesTask self (.visit change next) t := by
  obtain ⟨n, hn⟩ := h
  refine ⟨n, fun m hm w => ?_⟩
  obtain ⟨w', hw⟩ := hn m hm (change w)
  refine ⟨w', ?_⟩
  rw [runPlain, hnext w]
  exact hw

/-- The run of two tasks one after the other. -/
theorem runPlain_bind
    {evaluate : (r : F.Request) → F.World → Option (Trace (F.Output r) × F.World)}
    {self : F.Request} {task : Task F α} {f : α → Task F β} {w w' : F.World} {t : Trace β}
    (h : rules.runPlain evaluate self (task >>= f) w = some (t, w')) :
    ∃ t₁ w₁ t₂, rules.runPlain evaluate self task w = some (t₁, w₁) ∧
      rules.runPlain evaluate self (f t₁.result) w₁ = some (t₂, w') ∧ t.result = t₂.result ∧
      t.references = t₁.references ++ t₂.references := by
  change rules.runPlain evaluate self (task.bind f) w = some (t, w') at h
  induction task generalizing w t with
  | done a => exact ⟨⟨a, [], []⟩, w, t, rfl, h, rfl, rfl⟩
  | ask q next ih =>
    simp only [Task.bind, runPlain, Option.bind_eq_bind, Option.bind_eq_some_iff] at h ⊢
    obtain ⟨⟨tq, wq⟩, hq, ⟨tr, wr⟩, hr, h⟩ := h
    cases h
    obtain ⟨t₁, w₁, t₂, h₁, h₂, hres, hrefs⟩ := ih _ hr
    refine ⟨_, _, t₂, ⟨(tq, wq), hq, (t₁, w₁), h₁, rfl⟩, h₂, hres, ?_⟩
    simp only [hrefs, List.append_assoc]
  | record ref next ih =>
    simp only [Task.bind, runPlain, Option.bind_eq_bind, Option.bind_eq_some_iff] at h ⊢
    obtain ⟨⟨tr, wr⟩, hr, h⟩ := h
    cases h
    obtain ⟨t₁, w₁, t₂, h₁, h₂, hres, hrefs⟩ := ih hr
    refine ⟨_, _, t₂, ⟨(t₁, w₁), h₁, rfl⟩, h₂, hres, ?_⟩
    rw [hrefs, List.cons_append]
  | report d next ih =>
    simp only [Task.bind, runPlain, Option.bind_eq_bind, Option.bind_eq_some_iff] at h ⊢
    obtain ⟨⟨tr, wr⟩, hr, h⟩ := h
    cases h
    obtain ⟨t₁, w₁, t₂, h₁, h₂, hres, hrefs⟩ := ih hr
    exact ⟨_, _, t₂, ⟨(t₁, w₁), h₁, rfl⟩, h₂, hres, hrefs⟩
  | isActive q next ih => exact ih _ h
  | current next ih => exact ih _ h
  | log level text next ih => exact ih h
  | visit change next ih => exact ih _ h

end Rules

/-! ## What a task can do -/

namespace Task

/-- The task looks neither at the active requests nor at the world. -/
def Oblivious : Task F α → Prop
  | .done _ => True
  | .ask _ next => ∀ o, (next o).Oblivious
  | .record _ next => next.Oblivious
  | .report _ next => next.Oblivious
  | .isActive _ _ => False
  | .current _ => False
  | .log _ _ next => next.Oblivious
  | .visit _ next => ∀ w, (next w).Oblivious ∧ ∀ w', next w' = next w

theorem Oblivious.bind {t : Task F α} {f : α → Task F β} (ht : t.Oblivious)
    (hf : ∀ a, (f a).Oblivious) : (t >>= f).Oblivious := by
  show (t.bind f).Oblivious
  induction t with
  | done a => exact hf a
  | ask q next ih => exact fun o => ih o (ht o)
  | record ref next ih => exact ih ht
  | report d next ih => exact ih ht
  | isActive q next ih => exact ht.elim
  | current next ih => exact ht.elim
  | log level text next ih => exact ih ht
  | visit change next ih =>
    exact fun w => ⟨ih w (ht w).1, fun w' => congrArg (Task.bind · f) ((ht w).2 w')⟩

end Task

/-! ## The engine agrees with plain recursion -/

section Memo

variable (rules : Rules F) (asks : F.Request → F.Request → Prop) (exact : Prop)

/-- The results that are served for grounded requests are those of plain recursion. If `exact`,
so are the references recorded for them. -/
def Memoized (s : State F) : Prop :=
  ∀ r out, Grounded asks r → s.served? r = some out →
    ∃ t, rules.Traces r t ∧ t.result = out ∧
      (exact → ∀ ref, s.Records r ref ↔ ref ∈ t.references)

/-- The answer is the result of plain recursion, and what was reported for it is what plain
recursion reports. If `exact`, the references of plain recursion are written and recorded. -/
structure Agrees (r : F.Request) (s : State F) (o : Outcome F r) (s' : State F)
    (t : Trace (F.Output r)) : Prop where
  traces : rules.Traces r t
  outcome : o = .ok t.result
  diagnostics : ∃ ds, s'.diagnostics = s.diagnostics ++ ds ∧ ∀ d ∈ ds, d ∈ t.diagnostics
  scopes : exact → Grown (fun ref => ref ∈ t.references ∨ rules.Sinks r t.result ref)
    s.recorder.scopes s'.recorder.scopes
  recorded : exact → F.opensScope r → ∀ ref, s'.Records r ref ↔ ref ∈ t.references

variable {rules asks exact}

theorem Memoized.of_eq {s s' : State F} (h : Memoized rules asks exact s)
    (hs : ∀ q, s'.served? q = s.served? q) (hr : s'.recorder.recorded = s.recorder.recorded) :
    Memoized rules asks exact s' := by
  intro r out hg hout
  rw [hs] at hout
  obtain ⟨t, ht, hres, hrec⟩ := h r out hg hout
  refine ⟨t, ht, hres, fun he ref => ?_⟩
  rw [← hrec he ref, State.Records, State.recorded?, hr]
  rfl

/-- What holds after every answer. -/
def MemoAfter (rules : Rules F) (asks : F.Request → F.Request → Prop) (exact : Prop)
    (r : F.Request) (s : State F) (o : Outcome F r) (s' : State F) : Prop :=
  Memoized rules asks exact s' ∧ (Grounded asks r → ∃ t, Agrees rules exact r s o s' t)

section Bodies

variable {before : F.Request → State F → Prop}
  {after : (q : F.Request) → State F → Outcome F q → State F → Prop} {stack : List F.Request}
  {r : F.Request}
  (hbefore : ∀ q s, asks r q → Memoized rules asks exact s → before q s)
  (hafter : ∀ q s o s', after q s o s' → MemoAfter rules asks exact q s o s')

include hbefore hafter

/-- A body of a grounded request that looks at nothing but its answers does what plain recursion
does. -/
theorem safe_agrees {t : Task F α} {s : State F} (ht : t.Asks (asks r)) (hk : t.Keeps)
    (hobl : t.Oblivious) (hg : Grounded asks r) (hs : Memoized rules asks exact s) :
    t.Safe before after stack s fun a s' => Memoized rules asks exact s' ∧
      ∃ tr, rules.TracesTask r t tr ∧ tr.result = a ∧
        (∃ ds, s'.diagnostics = s.diagnostics ++ ds ∧ ∀ d ∈ ds, d ∈ tr.diagnostics) ∧
        (exact → Grown (· ∈ tr.references) s.recorder.scopes s'.recorder.scopes) := by
  induction t generalizing s with
  | done a =>
    exact ⟨hs, _, Rules.tracesTask_done r a, rfl, ⟨[], by simp, by simp⟩,
      fun _ => .rfl (by simp)⟩
  | ask q next ih =>
    refine ⟨hbefore q s ht.1 hs, fun o s₁ ho => ?_⟩
    obtain ⟨hs₁, hagrees⟩ := hafter q s o s₁ ho
    obtain ⟨tq, hq⟩ := hagrees (hg.of_asks ht.1)
    rw [hq.outcome]
    refine (ih _ (ht.2 _) (hk _) (hobl _) hs₁).mono ?_
    rintro a s₂ ⟨hs₂, tr, htr, hres, ⟨ds, hds, hmem⟩, hscopes⟩
    obtain ⟨ds₁, hds₁, hmem₁⟩ := hq.diagnostics
    refine ⟨hs₂, _, Rules.tracesTask_ask hq.traces htr, hres, ⟨ds₁ ++ ds, ?_, ?_⟩, fun he => ?_⟩
    · rw [hds, hds₁, List.append_assoc]
    · intro d hd
      rcases List.mem_append.1 hd with hd | hd
      · exact List.mem_append_left _ (hmem₁ d hd)
      · exact List.mem_append_right _ (hmem d hd)
    · refine ((hq.scopes he).trans (hscopes he)).congr fun ref => ?_
      simp [rules.mem_sinkOf, or_assoc]
  | record ref next ih =>
    have hs₁ : Memoized rules asks exact { s with recorder := s.recorder.write [ref] } :=
      hs.of_eq (Still.record s ref).served? (Still.record s ref).recorded
    refine (ih ht hk hobl hs₁).mono ?_
    rintro a s₂ ⟨hs₂, tr, htr, hres, hds, hscopes⟩
    refine ⟨hs₂, _, Rules.tracesTask_record htr, hres, hds, fun he => ?_⟩
    refine ((Grown.write s.recorder [ref]).trans (hscopes he)).congr fun ref' => ?_
    simp
  | report d next ih =>
    have hs₁ : Memoized rules asks exact { s with diagnostics := s.diagnostics.report d } :=
      hs.of_eq (fun _ => rfl) rfl
    refine (ih ht hk hobl hs₁).mono ?_
    rintro a s₂ ⟨hs₂, tr, htr, hres, ⟨ds, hds, hmem⟩, hscopes⟩
    refine ⟨hs₂, _, Rules.tracesTask_report htr, hres, ⟨d :: ds, ?_, ?_⟩, hscopes⟩
    · rw [hds, Diagnostics.report, List.append_assoc, List.singleton_append]
    · intro d' hd'
      rcases List.mem_cons.1 hd' with rfl | hd'
      · exact List.mem_cons_self
      · exact List.mem_cons_of_mem _ (hmem d' hd')
  | isActive q next ih => exact hobl.elim
  | current next ih => exact hobl.elim
  | log level text next ih =>
    have hs₁ : Memoized rules asks exact { s with log := s.log.write level text } :=
      hs.of_eq (fun _ => rfl) rfl
    exact (ih ht hk hobl hs₁).mono fun a s₂ h => h
  | visit change next ih =>
    have hs₁ : Memoized rules asks exact { s with world := change s.world } :=
      hs.of_eq (fun q => State.served?_congr rfl (hk.1 q s.world)) rfl
    refine (ih _ (ht _) (hk.2 _) (hobl s.world).1 hs₁).mono ?_
    rintro a s₂ ⟨hs₂, tr, htr, hrest⟩
    exact ⟨hs₂, tr, Rules.tracesTask_visit (hobl s.world).2 htr, hrest⟩

end Bodies

theorem Enters.memoized {stack : List F.Request} {r : F.Request} {s s₁ : State F}
    (hin : Enters stack r s s₁) (h : Memoized rules asks exact s) :
    Memoized rules asks exact s₁ :=
  h.of_eq hin.served? hin.recorded

/-- Closing a computation keeps the state memoized, if the result is that of plain recursion. -/
theorem Memoized.leaves (lawful : rules.Lawful) {r : F.Request} {out : F.Output r}
    {s s' : State F} (h : Memoized rules asks exact s) (hout : Leaves rules r out s s')
    (hr : Grounded asks r → ∃ t, rules.Traces r t ∧ t.result = out ∧
      (exact → F.opensScope r → ∀ ref, s'.Records r ref ↔ ref ∈ t.references)) :
    Memoized rules asks exact s' := by
  intro q out' hg hserved
  by_cases hq : q = r
  · subst hq
    obtain rfl := hout.served?_self lawful hserved
    obtain ⟨t, ht, hres, hrec⟩ := hr hg
    refine ⟨t, ht, hres, fun he => hrec he ?_⟩
    -- a result that is served is kept, and one that is kept has a scope of its own
    unfold State.served? Family.inEngine Family.inStore at hserved
    cases hk : F.isKept q with
    | true => simp [Family.opensScope, hk]
    | false => simp [hk] at hserved
  · rw [hout.served?_of_ne lawful hq] at hserved
    obtain ⟨t, ht, hres, hrec⟩ := h q out' hg hserved
    refine ⟨t, ht, hres, fun he ref => ?_⟩
    rw [← hrec he ref, State.Records, hout.recorded_of_ne q hq]
    rfl

/-- Dropping results keeps the state memoized. The references of all results are dropped together,
so that none may still be served. -/
theorem Memoized.effect {c : Command F} {s s' : State F}
    (h : Memoized rules asks exact s) (he : c.Effect s s') (hput : ¬ c.IsPut)
    (hclear : exact → c.IsClearCache → ∀ q, F.inStore q → s.served? q = none) :
    Memoized rules asks exact s' := by
  intro r out hg hserved
  have hserved₀ := he.served hput r out hserved
  obtain ⟨t, ht, hres, hrec⟩ := h r out hg hserved₀
  refine ⟨t, ht, hres, fun hexact ref => ?_⟩
  have hsame : s'.recorded? r = s.recorded? r := by
    by_cases hc : c.IsClearCache
    · exfalso
      cases hin : F.inEngine r with
      | true =>
        rw [(he.cleared hc r).2 hin] at hserved
        cases hserved
      | false =>
        cases hst : F.inStore r with
        | true =>
          rw [hclear hexact hc r hst] at hserved₀
          cases hserved₀
        | false => simp [State.served?, hin, hst] at hserved₀
    · exact he.recorded hc r out hserved
  rw [← hrec hexact ref, State.Records, hsame]
  rfl

/-- A result that is served is that of plain recursion. -/
theorem Memoized.hit {stack : List F.Request} {r : F.Request} {out : F.Output r} {s s' : State F}
    (h : Memoized rules asks exact s) (hg : Grounded asks r) (hserved : s.served? r = some out)
    (hs : Serves rules stack r out s s') : ∃ t, Agrees rules exact r s (.ok out) s' t := by
  obtain ⟨t, ht, rfl, hrec⟩ := h r out hg hserved
  refine ⟨t, ht, rfl, ⟨[], by simp [hs.diagnostics], by simp⟩, fun he => ?_, fun he _ ref => ?_⟩
  · refine hs.scopes.congr fun ref => ?_
    rw [hrec he ref]
  · rw [← hrec he ref, State.Records, State.recorded?, hs.recorded]
    rfl

/-- The engine and plain recursion agree about every grounded request. The results of the others
may depend on what is active. -/
def memo (lawful : rules.Lawful) (hasks : ∀ r, (rules.body r).Asks (asks r))
    (hobl : ∀ r, Grounded asks r → (rules.body r).Oblivious) :
    Discipline rules fun _ => True where
  before _ stack r s := Memoized rules asks exact s ∧ Linked asks stack r
  after _ r s o s' := MemoAfter rules asks exact r s o s'
  exhausted _ := trivial
  faults _ := .inl fun _ _ => trivial
  cycle hb hr hc :=
    ⟨hb.1.of_eq hc.served? (by rw [hc.recorder]), fun hg => absurd hr (hg.not_mem hb.2)⟩
  hit hb _ hserved hs :=
    ⟨hb.1.of_eq (hs.served? lawful) hs.recorded, fun hg => hb.1.hit hg hserved hs⟩
  body := by
    intro n stack r s s₁ hb hr hnone hin
    have hbefore : ∀ q s, asks r q → Memoized rules asks exact s →
        Memoized rules asks exact s ∧ Linked asks (r :: stack) q :=
      fun q s hq hs => ⟨hs, hb.2.push hq⟩
    by_cases hg : Grounded asks r
    · refine (safe_agrees hbefore (fun _ _ _ _ h => h.2) (hasks r) (lawful.body r) (hobl r hg) hg
        (hin.memoized hb.1)).mono ?_
      rintro out s₂ ⟨hs₂, t, ht, rfl, ⟨ds, hds, hmem⟩, hscopes⟩ s' hout
      have hagrees : Agrees rules exact r s (.ok t.result) s' t :=
        { traces := Rules.traces_of_body ht
          outcome := rfl
          diagnostics := ⟨ds, by rw [hout.diagnostics, hds, hin.diagnostics], hmem⟩
          scopes := fun he => hout.scopes hin (hscopes he)
          recorded := fun he ho => hout.records hin (hscopes he) ho }
      exact ⟨hs₂.leaves lawful hout fun _ => ⟨t, hagrees.traces, rfl, hagrees.recorded⟩,
        fun _ => ⟨t, hagrees⟩⟩
    · refine (Task.safe_invariant (fun s s' h hs => hs.of_eq h.served? h.recorded) hbefore
        (fun _ _ _ _ _ _ h => h.2.1) (hasks r) (lawful.body r) (hin.memoized hb.1)).mono ?_
      intro out s₂ hs₂ s' hout
      exact ⟨hs₂.leaves lawful hout fun h => absurd h hg, fun h => absurd h hg⟩

/-- A grounded request whose computations are known is answered, with the result of plain
recursion. -/
theorem exists_agrees (lawful : rules.Lawful) (hasks : ∀ r, (rules.body r).Asks (asks r))
    (hobl : ∀ r, Grounded asks r → (rules.body r).Oblivious) {us : List F.Request}
    (hus : ∀ p q, asks p q → q ∈ us) {n : Nat} {stack : List F.Request} {r : F.Request}
    {s : State F} (hb : Bounded asks us.length n stack r) (hown : s.Owned)
    (hknown : ∀ q, Relation.ReflTransGen asks r q → s.registry.knows (F.kind q))
    (hs : Memoized rules asks exact s) (hg : Grounded asks r) :
    ∃ t s', rules.evaluate n stack r s = .ok (.ok t.result) s' ∧
      Agrees rules exact r s (.ok t.result) s' t := by
  have hends := (bounded lawful hasks us hus fun _ => False).ends lawful n stack r s
    ⟨hb, .inr ⟨hown, hknown⟩⟩
  obtain ⟨o, s', ho, -⟩ := hends.exists_ok
  have hafter := ((memo lawful hasks hobl).ends lawful n stack r s ⟨hs, hb.linked⟩).of_ok ho
  obtain ⟨t, ht⟩ := hafter.2.2 hg
  obtain rfl := ht.outcome
  exact ⟨t, s', ho, ht⟩

end Memo

end Demand
