import Demand.Engine.Command
import Demand.Proofs.Engine.Calls

/-!
# What commands do to the engine

A command that evaluates nothing adds to the known computations, gives a result, or drops results.
What it leaves of the tables is said once for all commands (`Command.Effect`), for those that stop
at a fault as well: a command that drops one result drops what is recorded for it, and one that
drops all results drops everything that is recorded.
-/

namespace Demand

variable {F : Family} {α β : Type}

/-! ## The state that is left -/

namespace Eval

/-- The state in which the steps end or stop. -/
def final (m : Eval F α) (s : State F) : State F :=
  match m s with
  | .ok _ s' | .error _ s' => s'

theorem final_of_ok {m : Eval F α} {s s' : State F} {a : α} (h : m s = .ok a s') :
    m.final s = s' := by
  rw [final, h]

theorem final_bind (m : Eval F α) (f : α → Eval F β) (s : State F) :
    (m >>= f).final s =
      match m s with
      | .ok a s' => (f a).final s'
      | .error _ s' => s' := by
  show (match EStateM.bind m f s with | .ok _ s' | .error _ s' => s') = _
  unfold EStateM.bind final
  cases m s <;> rfl

theorem final_get_bind (f : State F → Eval F β) (s : State F) :
    (get >>= f).final s = (f s).final s := rfl

theorem final_ofExcept_bind (x : Except (Fault F) α) (f : α → Eval F β) (s : State F) :
    (ofExcept x >>= f).final s =
      match x with
      | .ok a => (f a).final s
      | .error _ => s := by
  cases x <;> rfl

/-- Naming a result changes nothing. -/
theorem final_map (m : Eval F α) (f : α → β) (s : State F) :
    (do return f (← m) : Eval F β).final s = m.final s := by
  show (match EStateM.bind m (fun a => pure (f a)) s with | .ok _ s' | .error _ s' => s') = _
  unfold EStateM.bind final
  cases m s <;> rfl

/-- From `s`, the steps leave a state for which `I` holds, whether they end or stop. If they end,
`Q` holds of the result. -/
def Lands (I : State F → Prop) (m : Eval F α) (s : State F) (Q : α → Prop) : Prop :=
  match m s with
  | .ok a s' => I s' ∧ Q a
  | .error _ s' => I s'

section Lands

variable {I : State F → Prop} {m : Eval F α} {s : State F} {Q Q' : α → Prop}

theorem lands_pure {a : α} (hs : I s) (ha : Q a) : Lands I (pure a) s Q :=
  ⟨hs, ha⟩

theorem lands_of_ok {a : α} {s' : State F} (h : m s = .ok a s') (hs : I s') (ha : Q a) :
    Lands I m s Q := by
  rw [Lands, h]
  exact ⟨hs, ha⟩

theorem lands_of_error {e : Stop F} {s' : State F} (h : m s = .error e s') (hs : I s') :
    Lands I m s Q := by
  rw [Lands, h]
  exact hs

theorem lands_of_final (h : I (m.final s)) : Lands I m s fun _ => True := by
  unfold final at h
  unfold Lands
  cases hm : m s with
  | ok a s' =>
    rw [hm] at h
    exact ⟨h, trivial⟩
  | error e s' =>
    rw [hm] at h
    exact h

theorem Lands.final (h : Lands I m s Q) : I (m.final s) := by
  unfold Lands at h
  unfold Eval.final
  cases hm : m s with
  | ok a s' =>
    rw [hm] at h
    exact h.1
  | error e s' =>
    rw [hm] at h
    exact h

theorem Lands.bind {f : α → Eval F β} {P : β → Prop} (h : Lands I m s Q)
    (hf : ∀ a s', I s' → Q a → Lands I (f a) s' P) : Lands I (m >>= f) s P := by
  unfold Lands at h
  show match EStateM.bind m f s with | .ok b s' => I s' ∧ P b | .error _ s' => I s'
  unfold EStateM.bind
  cases hm : m s with
  | ok a s' =>
    rw [hm] at h
    exact hf a s' h.1 h.2
  | error e s' =>
    rw [hm] at h
    exact h

end Lands

end Eval

theorem Registry.knows_of_install {g g' : Registry F} {rules : ZoneRules F}
    (h : g.install rules = .ok g') {k : F.Kind} (hk : g.knows k) : g'.knows k := by
  unfold install at h
  cases hz : g.zone? rules.zone with
  | some z => rw [hz] at h; cases h
  | none =>
    rw [hz] at h
    cases h
    unfold knows check zone? at hk ⊢
    rw [List.find?_append]
    cases hf : g.zones.find? fun z => z.zone = (F.typeId k).zone with
    | none => rw [hf] at hk; cases hk
    | some z =>
      rw [hf] at hk
      exact hk

/-! ## Commands that evaluate nothing -/

namespace Command

/-- The command gives a result. -/
def IsPut : Command F → Prop
  | put .. => True
  | _ => False

/-- The command drops every result. -/
def IsClearCache : Command F → Prop
  | clearCache => True
  | _ => False

/-- The command evaluates requests. -/
def IsEvaluate : Command F → Prop
  | evaluate _ => True
  | _ => False

/-- The command drops the result of the request. -/
def Drops (q : F.Request) : Command F → Prop
  | clear r => r = q
  | clearCache => True
  | _ => False

/-- What a command that evaluates nothing does. -/
structure Effect (c : Command F) (s s' : State F) : Prop where
  options : s'.options = s.options
  knows : ∀ k, s.registry.knows k → s'.registry.knows k
  scopes : s'.recorder.scopes = s.recorder.scopes
  filed : s'.recorder.filed = s.recorder.filed
  graph : s'.graph = s.graph
  recorded_owned : s.recorder.recorded.Owned s.registry.knows →
    s'.recorder.recorded.Owned s'.registry.knows
  cache_owned : ¬ c.IsPut → s.cache.Owned s.registry.knows → s'.cache.Owned s'.registry.knows
  /-- Nothing but a given result is served that was not served before. -/
  served : ¬ c.IsPut → ∀ q v, s'.served? q = some v → s.served? q = some v
  /-- What is served is served on, unless it is dropped. -/
  kept : ∀ q, ¬ c.Drops q → (s.served? q).isSome → (s'.served? q).isSome
  /-- A store outside the engine loses nothing. -/
  stored : ∀ q, F.inStore q → (s.served? q).isSome → (s'.served? q).isSome
  fetch : ¬ c.IsPut → ∀ q, F.fetch q s'.world = F.fetch q s.world
  /-- What is still served has its records, unless all are dropped. -/
  recorded : ¬ c.IsClearCache → ∀ q v, s'.served? q = some v → s'.recorded? q = s.recorded? q
  recorded_stored : ¬ c.IsClearCache → ∀ q, F.inStore q → s'.recorded? q = s.recorded? q
  cleared : c.IsClearCache → ∀ q, s'.recorded? q = none ∧ (F.inEngine q → s'.served? q = none)

variable {c : Command F} {s s' : State F}

/-- A command that leaves the tables and the world as they are. -/
theorem Effect.of_same (hc : ¬ c.IsClearCache) (ho : s'.options = s.options)
    (hk : ∀ k, s.registry.knows k → s'.registry.knows k) (hcache : s'.cache = s.cache)
    (hrec : s'.recorder = s.recorder) (hg : s'.graph = s.graph) (hw : s'.world = s.world) :
    Effect c s s' := by
  have hserved : ∀ q, s'.served? q = s.served? q := fun q =>
    State.served?_congr (by rw [State.result?, hcache]; rfl) (by rw [hw])
  have hrecorded : ∀ q, s'.recorded? q = s.recorded? q := fun q => by
    rw [State.recorded?, hrec]; rfl
  constructor
  case options => exact ho
  case knows => exact hk
  case scopes => rw [hrec]
  case filed => rw [hrec]
  case graph => exact hg
  case recorded_owned => rw [hrec]; exact fun h => Tables.owned_mono h hk
  case cache_owned => rw [hcache]; exact fun _ h => Tables.owned_mono h hk
  case served => exact fun _ q v hv => (hserved q).symm.trans hv
  case kept => intro q _ h; rw [hserved]; exact h
  case stored => intro q _ h; rw [hserved]; exact h
  case fetch => exact fun _ q => by rw [hw]
  case recorded => exact fun _ q _ _ => hrecorded q
  case recorded_stored => exact fun _ q _ => hrecorded q
  case cleared => exact fun h => absurd h hc

theorem Effect.refl (hc : ¬ c.IsClearCache) (s : State F) : Effect c s s :=
  .of_same hc rfl (fun _ h => h) rfl rfl rfl rfl

/-- Giving computations changes nothing but what is known. -/
theorem final_register (zone : Zone) (kinds : List F.Kind) (s : State F) :
    ∃ registry log, (Eval.register zone kinds).final s =
      { s with registry := registry, log := log } := by
  unfold Eval.register
  rw [Eval.final_ofExcept_bind]
  cases ZoneRules.ofKinds zone kinds with
  | error f => exact ⟨s.registry, s.log, rfl⟩
  | ok z =>
    dsimp only
    rw [Eval.final_get_bind, Eval.final_ofExcept_bind]
    cases s.registry.install z with
    | error f => exact ⟨s.registry, s.log, rfl⟩
    | ok g => exact ⟨g, _, rfl⟩

variable (c s) in
theorem effect_register (hc : ¬ c.IsClearCache) (zone : Zone) (kinds : List F.Kind) :
    Effect c s ((Eval.register zone kinds).final s) := by
  unfold Eval.register
  rw [Eval.final_ofExcept_bind]
  cases ZoneRules.ofKinds zone kinds with
  | error f => exact .refl hc s
  | ok z =>
    dsimp only
    rw [Eval.final_get_bind, Eval.final_ofExcept_bind]
    cases hi : s.registry.install z with
    | error f => exact .refl hc s
    | ok g => exact .of_same hc rfl (fun k => Registry.knows_of_install hi) rfl rfl rfl rfl

/-- A request that is dropped has neither result nor record, and the others keep theirs. -/
theorem effect_of_erased {r : F.Request} (hr : (F.policyOf r).isExternal = false)
    {cache : Tables F F.Output} {recorded : Tables F fun _ => Scope}
    (hcache : cache.value? r = none ∧ ∀ q, q ≠ r → cache.value? q = s.cache.value? q)
    (hrec : ∀ q, q ≠ r → recorded.value? q = s.recorder.recorded.value? q)
    (hco : s.cache.Owned s.registry.knows → cache.Owned s.registry.knows)
    (hro : s.recorder.recorded.Owned s.registry.knows → recorded.Owned s.registry.knows) :
    Effect (.clear r) s
      { s with cache := cache, recorder := { s.recorder with recorded := recorded } } := by
  have hstore : F.inStore r = false := by simp [Family.inStore, hr]
  have hnone : State.served? { s with cache := cache } r = none := by
    unfold State.served?
    rw [hstore]
    split
    · exact hcache.1
    · rfl
  have hserved : ∀ q, q ≠ r → State.served? { s with cache := cache } q = s.served? q :=
    fun q hq => State.served?_congr (hcache.2 q hq) rfl
  have hne : ∀ q v, State.served? { s with cache := cache } q = some v → q ≠ r := by
    rintro q v hv rfl
    rw [hnone] at hv
    cases hv
  have hne' : ∀ q, F.inStore q → q ≠ r := by
    rintro q hq rfl
    rw [hstore] at hq
    cases hq
  constructor
  case options => rfl
  case knows => exact fun _ h => h
  case scopes => rfl
  case filed => rfl
  case graph => rfl
  case recorded_owned => exact hro
  case cache_owned => exact fun _ => hco
  case served => exact fun _ q v hv => (hserved q (hne q v hv)).symm.trans hv
  case kept =>
    intro q hq h
    show (State.served? { s with cache := cache } q).isSome
    rw [hserved q fun he => hq he.symm]
    exact h
  case stored =>
    intro q hq h
    show (State.served? { s with cache := cache } q).isSome
    rw [hserved q (hne' q hq)]
    exact h
  case fetch => exact fun _ _ => rfl
  case recorded => exact fun _ q v hv => hrec q (hne q v hv)
  case recorded_stored => exact fun _ q hq => hrec q (hne' q hq)
  case cleared => exact fun h => h.elim

variable (s) in
theorem effect_clear (r : F.Request) : Effect (.clear r) s ((Eval.clearResult r).final s) := by
  unfold Eval.clearResult
  cases he : (F.policyOf r).isExternal with
  | true => exact .refl id s
  | false =>
    simp only [Bool.false_eq_true, if_false]
    rw [Eval.final_get_bind, Eval.final_ofExcept_bind, Recorder.forget]
    cases hr : s.recorder.recorded.erase r with
    | error f => exact .refl id s
    | ok x =>
      obtain ⟨b, recorded⟩ := x
      show Effect _ s (Eval.final (Eval.ofExcept (s.cache.erase r) >>= _) _)
      rw [Eval.final_ofExcept_bind]
      have hrec := (Tables.erase_values hr).2
      have hro : s.recorder.recorded.Owned s.registry.knows → recorded.Owned s.registry.knows :=
        fun h => Tables.erase_owned h hr
      cases hc : s.cache.erase r with
      | error f =>
        have hnone : s.cache.value? r = none := Tables.value?_of_erase_error hc
        exact effect_of_erased he ⟨hnone, fun _ _ => rfl⟩ hrec id hro
      | ok y =>
        exact effect_of_erased he (Tables.erase_values hc) hrec
          (fun h => Tables.erase_owned h hc) hro

variable (s) in
theorem effect_clearCache : Effect .clearCache s (Eval.clearCache.final s) := by
  have hserved : ∀ q, F.inEngine q → State.served? (Eval.clearCache.final s) q = none := by
    intro q hq
    rw [State.served?, if_pos hq]
    exact Tables.value?_clear s.cache q
  have hother : ∀ q, F.inEngine q = false →
      State.served? (Eval.clearCache.final s) q = s.served? q := by
    intro q hq
    unfold State.served?
    rw [hq]
    rfl
  constructor
  case options => rfl
  case knows => exact fun _ h => h
  case scopes => rfl
  case filed => rfl
  case graph => rfl
  case recorded_owned => exact fun h => Tables.owned_clear h
  case cache_owned => exact fun _ h => Tables.owned_clear h
  case served =>
    intro _ q v hv
    cases hq : F.inEngine q with
    | true => rw [hserved q hq] at hv; cases hv
    | false => rw [← hother q hq]; exact hv
  case kept => exact fun _ hq => absurd trivial hq
  case stored =>
    intro q hq h
    rw [hother q (Family.inEngine_of_inStore hq)]
    exact h
  case fetch => exact fun _ _ => rfl
  case recorded => exact fun h => absurd trivial h
  case recorded_stored => exact fun h => absurd trivial h
  case cleared => exact fun _ q => ⟨Tables.value?_clear s.recorder.recorded q, hserved q⟩

/-- Giving a result writes to the log, and puts the result where it is kept unless it is refused. -/
theorem final_putResult (r : F.Request) (out : F.Output r) (s : State F) :
    ∃ log, (Eval.putResult r out).final s = { s with log := log } ∨
      F.inStore r ∧
        (Eval.putResult r out).final s = { s with log := log, world := F.store r out s.world } ∨
      ∃ cache, s.cache.insert r out = .ok cache ∧ F.inEngine r ∧
        (Eval.putResult r out).final s = { s with log := log, cache := cache } := by
  unfold Eval.putResult
  by_cases hk : (F.policyOf r).keeps
  · by_cases ha : F.isKept r
    · simp only [hk, ha, Bool.not_true, Bool.false_eq_true, if_false]
      by_cases he : (F.policyOf r).isExternal
      · simp only [he, if_true]
        exact ⟨_, .inr (.inl ⟨by simp [Family.inStore, ha, he], rfl⟩)⟩
      · simp only [he, Bool.false_eq_true, if_false, Eval.cacheResult_eq]
        cases hi : s.cache.insert r out with
        | error f =>
          refine ⟨s.log.write .trace s!"caching output of {F.text r} by hand", .inl ?_⟩
          show Eval.final (Eval.ofExcept (s.cache.insert r out) >>= _) _ = _
          rw [Eval.final_ofExcept_bind, hi]
        | ok cache =>
          refine ⟨s.log.write .trace s!"caching output of {F.text r} by hand",
            .inr (.inr ⟨cache, rfl, by simp [Family.inEngine, ha, he], ?_⟩)⟩
          show Eval.final (Eval.ofExcept (s.cache.insert r out) >>= _) _ = _
          rw [Eval.final_ofExcept_bind, hi]
          rfl
    · simp only [hk, ha, Bool.not_true, Bool.false_eq_true, if_false, Bool.not_false, if_true]
      exact ⟨s.log, .inl rfl⟩
  · simp only [hk, Bool.not_false, if_true]
    exact ⟨s.log, .inl rfl⟩

variable (s) in
theorem effect_put {rules : Rules F} (lawful : rules.Lawful) (r : F.Request) (out : F.Output r) :
    Effect (.put r out) s ((Eval.putResult r out).final s) := by
  have hsame : ∀ log cache w,
      (∀ q, (s.cache.value? q).isSome → (cache.value? q).isSome) →
      (∀ q, (F.fetch q s.world).isSome → (F.fetch q w).isSome) →
      Effect (.put r out) s { s with log := log, cache := cache, world := w } := by
    intro log cache w hcache hw
    have hserved : ∀ q, (s.served? q).isSome →
        (State.served? { s with cache := cache, world := w } q).isSome := by
      intro q h
      unfold State.served? at h ⊢
      by_cases he : F.inEngine q
      · rw [if_pos he] at h ⊢
        exact hcache q h
      · rw [if_neg he] at h ⊢
        by_cases hst : F.inStore q
        · rw [if_pos hst] at h ⊢
          exact hw q h
        · rw [if_neg hst] at h
          cases h
    constructor
    case options => rfl
    case knows => exact fun _ h => h
    case scopes => rfl
    case filed => rfl
    case graph => rfl
    case recorded_owned => exact id
    case cache_owned => exact fun h => absurd trivial h
    case served => exact fun h => absurd trivial h
    case kept => exact fun q _ => hserved q
    case stored => exact fun q _ => hserved q
    case fetch => exact fun h => absurd trivial h
    case recorded => exact fun _ _ _ _ => rfl
    case recorded_stored => exact fun _ _ _ => rfl
    case cleared => exact fun h => h.elim
  obtain ⟨log, h | ⟨-, h⟩ | ⟨cache, hi, -, h⟩⟩ := final_putResult r out s
  · rw [h]
    exact hsame log s.cache s.world (fun _ h => h) fun _ h => h
  · rw [h]
    refine hsame log s.cache (F.store r out s.world) (fun _ h => h) fun q hq => ?_
    by_cases hqr : q = r
    · subst hqr
      rcases lawful.fetch_store q out s.world with h | h
      · rw [h]; rfl
      · rw [h] at hq; cases hq
    · rw [lawful.fetch_store_of_ne r out s.world q hqr]
      exact hq
  · rw [h]
    refine hsame log cache s.world (fun q hq => ?_) fun _ h => h
    by_cases hqr : q = r
    · rw [hqr, (Tables.insert_values hi).1]
      rfl
    · rw [(Tables.insert_values hi).2 q hqr]
      exact hq

/-- What is served after a result was given was served before, or is the given result. -/
theorem served_put {rules : Rules F} (lawful : rules.Lawful) {r q : F.Request} {out : F.Output r}
    {v : F.Output q} (h : ((Eval.putResult r out).final s).served? q = some v) :
    s.served? q = some v ∨ (⟨q, v⟩ : (p : F.Request) × F.Output p) = ⟨r, out⟩ := by
  obtain ⟨log, hs | ⟨hr, hs⟩ | ⟨cache, hi, hr, hs⟩⟩ := final_putResult r out s
  · rw [hs] at h
    exact .inl h
  · rw [hs] at h
    by_cases hqr : q = r
    · subst hqr
      rw [State.served?_of_inStore hr] at h
      rcases lawful.fetch_store q out s.world with hf | hf
      · rw [hf] at h
        cases h
        exact .inr rfl
      · rw [hf] at h
        cases h
    · have hsame : State.served? { s with log := log, world := F.store r out s.world } q =
          s.served? q := State.served?_congr rfl (lawful.fetch_store_of_ne r out s.world q hqr)
      exact .inl (hsame.symm.trans h)
  · rw [hs] at h
    by_cases hqr : q = r
    · subst hqr
      rw [State.served?, if_pos hr, State.result?, (Tables.insert_values hi).1] at h
      cases h
      exact .inr rfl
    · have hsame : State.served? { s with log := log, cache := cache } q = s.served? q :=
        State.served?_congr ((Tables.insert_values hi).2 q hqr) rfl
      exact .inl (hsame.symm.trans h)

/-- A result of a known kind leaves every table with a known kind. -/
theorem owned_put {r : F.Request} (hr : s.registry.knows (F.kind r)) (hs : s.Owned)
    (out : F.Output r) : ((Eval.putResult r out).final s).Owned := by
  obtain ⟨log, h | ⟨-, h⟩ | ⟨cache, hi, -, h⟩⟩ := final_putResult r out s
  · rw [h]
    exact hs
  · rw [h]
    exact hs
  · rw [h]
    exact ⟨Tables.insert_owned hs.1 hr hi, hs.2⟩

/-- A result that is given goes into the cache. -/
theorem insert_of_putResult {r : F.Request} {out : F.Output r} (hr : F.inEngine r)
    (h : Eval.putResult r out s = .ok () s') :
    ∃ log cache, s.cache.insert r out = .ok cache ∧ s' = { s with log := log, cache := cache } := by
  have hkept := Bool.and_eq_true_iff.1 hr
  have hkeeps : (F.policyOf r).keeps = true := (Bool.and_eq_true_iff.1 hkept.1).1
  have hplace : (F.policyOf r).isExternal = false := by simpa using hkept.2
  unfold Eval.putResult at h
  simp only [hkeeps, hkept.1, hplace, Bool.not_true, Bool.false_eq_true, if_false,
    Eval.cacheResult_eq] at h
  obtain ⟨_, s₁, hlog, h⟩ := Eval.bind_eq_ok.1 h
  cases hlog
  obtain ⟨_, s₁, hget, h⟩ := Eval.bind_eq_ok.1 h
  cases hget
  obtain ⟨cache, s₁, hinsert, h⟩ := Eval.bind_eq_ok.1 h
  cases h
  cases hi : s.cache.insert r out with
  | error f =>
    simp only [hi, Eval.ofExcept] at hinsert
    cases hinsert
  | ok t =>
    simp only [hi, Eval.ofExcept] at hinsert
    cases hinsert
    exact ⟨_, _, rfl, rfl⟩

/-- A result that is given is there afterwards. -/
theorem served?_of_putResult {r : F.Request} {out : F.Output r} (hr : F.inEngine r)
    (h : Eval.putResult r out s = .ok () s') : s'.served? r = some out := by
  obtain ⟨log, cache, hi, rfl⟩ := insert_of_putResult hr h
  rw [State.served?, if_pos hr]
  exact (Tables.insert_values hi).1

theorem final_hasResult (r : F.Request) (s : State F) : (Eval.hasResult r).final s = s := by
  unfold Eval.hasResult
  by_cases hk : F.isKept r
  · by_cases he : (F.policyOf r).isExternal
    · simp only [hk, he, Bool.not_true, Bool.false_eq_true, if_false, if_true]
      rfl
    · simp only [hk, he, Bool.not_true, Bool.false_eq_true, if_false]
      rw [Eval.final_map]
      unfold Eval.cached?
      rw [Eval.final_get_bind]
      cases s.cache.get? r <;> rfl
  · simp only [hk, Bool.not_false, if_true]
    rfl

/-- What each command that evaluates nothing does. -/
theorem effect {rules : Rules F} (lawful : rules.Lawful) (hc : ¬ c.IsEvaluate) (n : Nat)
    (s : State F) : Effect c s ((c.run rules n).final s) := by
  cases c with
  | register zone kinds =>
    rw [run, Eval.final_map]
    exact effect_register _ s id zone kinds
  | evaluate rs => exact absurd trivial hc
  | put r out =>
    rw [run, Eval.final_map _ fun _ => Reply.done]
    exact effect_put s lawful r out
  | isCached r =>
    rw [run, Eval.final_map, final_hasResult]
    exact .refl id s
  | clear r =>
    rw [run, Eval.final_map]
    exact effect_clear s r
  | clearCache =>
    rw [run, Eval.final_map _ fun _ => Reply.done]
    exact effect_clearCache s
  | references file => exact .refl id s
  | statistics => exact .refl id s
  | dump r => exact .refl id s
  | graphviz => exact .of_same id rfl (fun _ h => h) rfl rfl rfl rfl
  | report d => exact .of_same id rfl (fun _ h => h) rfl rfl rfl rfl
  | diagnostics => exact .refl id s
  | takeDiagnostics => exact .of_same id rfl (fun _ h => h) rfl rfl rfl rfl

/-- The command gives computations. -/
def IsRegister : Command F → Prop
  | register .. => True
  | _ => False

/-- The command reports a diagnostic. -/
def IsReport : Command F → Prop
  | report _ => True
  | _ => False

/-- What a command that evaluates, reports and registers nothing leaves alone: what is known, the
diagnostics unless they are taken, and the kinds that the tables belong to. -/
structure Retains (s s' : State F) : Prop where
  registry : s'.registry = s.registry
  diagnostics : s'.diagnostics ⊆ s.diagnostics
  cache_owned : s.cache.Owned (fun _ => True) → s'.cache.Owned fun _ => True
  recorded_owned : s.recorder.recorded.Owned (fun _ => True) →
    s'.recorder.recorded.Owned fun _ => True

theorem Retains.refl (s : State F) : Retains s s :=
  ⟨rfl, fun _ h => h, id, id⟩

theorem retains_put (r : F.Request) (out : F.Output r) (s : State F) :
    Retains s ((Eval.putResult r out).final s) := by
  obtain ⟨log, h | ⟨-, h⟩ | ⟨cache, hi, -, h⟩⟩ := final_putResult r out s
  · rw [h]
    exact ⟨rfl, fun _ h => h, id, id⟩
  · rw [h]
    exact ⟨rfl, fun _ h => h, id, id⟩
  · rw [h]
    exact ⟨rfl, fun _ h => h, fun ho => Tables.insert_owned ho trivial hi, id⟩

theorem retains_clear (r : F.Request) (s : State F) :
    Retains s ((Eval.clearResult r).final s) := by
  unfold Eval.clearResult
  cases he : (F.policyOf r).isExternal with
  | true => exact .refl s
  | false =>
    simp only [Bool.false_eq_true, if_false]
    rw [Eval.final_get_bind, Eval.final_ofExcept_bind, Recorder.forget]
    cases hr : s.recorder.recorded.erase r with
    | error f => exact .refl s
    | ok x =>
      show Retains s (Eval.final (Eval.ofExcept (s.cache.erase r) >>= _) _)
      rw [Eval.final_ofExcept_bind]
      cases hc : s.cache.erase r with
      | error f => exact ⟨rfl, fun _ h => h, id, fun ho => Tables.erase_owned ho hr⟩
      | ok y =>
        exact ⟨rfl, fun _ h => h, fun ho => Tables.erase_owned ho hc,
          fun ho => Tables.erase_owned ho hr⟩

theorem retains {rules : Rules F} (he : ¬ c.IsEvaluate) (hg : ¬ c.IsRegister) (hr : ¬ c.IsReport)
    (n : Nat) (s : State F) : Retains s ((c.run rules n).final s) := by
  cases c with
  | register zone kinds => exact absurd trivial hg
  | evaluate rs => exact absurd trivial he
  | put r out =>
    rw [run, Eval.final_map _ fun _ => Reply.done]
    exact retains_put r out s
  | isCached r =>
    rw [run, Eval.final_map, final_hasResult]
    exact .refl s
  | clear r =>
    rw [run, Eval.final_map]
    exact retains_clear r s
  | clearCache =>
    exact ⟨rfl, fun _ h => h, fun h => Tables.owned_clear h, fun h => Tables.owned_clear h⟩
  | report d => exact absurd trivial hr
  | takeDiagnostics => exact ⟨rfl, List.nil_subset _, id, id⟩
  | references | statistics | dump | graphviz | diagnostics => exact ⟨rfl, fun _ h => h, id, id⟩

/-- What dropping a result from the cache does, and whether there was one. -/
structure Clears (r : F.Request) (had : Bool) (s s' : State F) : Prop where
  had_eq : had = (s.result? r).isSome
  result_self : s'.result? r = none
  result_of_ne : ∀ q, q ≠ r → s'.result? q = s.result? q
  diagnostics : s'.diagnostics = s.diagnostics
  world : s'.world = s.world

theorem ends_clearResult {r : F.Request} (hs : s.Owned) (hr : s.registry.knows (F.kind r)) :
    Eval.Ends (fun _ => False) (Eval.clearResult r) s fun had s' =>
      (F.policyOf r).isExternal = false → Clears r had s s' := by
  unfold Eval.clearResult
  split
  next he => exact fun he' => absurd he (by simp [he'])
  next =>
    obtain ⟨b, recorded, hrec⟩ := Tables.exists_erase hs.2 Registry.knows_injective hr
    obtain ⟨b', cache, hcache⟩ := Tables.exists_erase hs.1 Registry.knows_injective hr
    have hforget : s.recorder.forget r = .ok { s.recorder with recorded := recorded } := by
      rw [Recorder.forget, hrec]
      rfl
    rw [Eval.ends_bind, Eval.ends_get, Eval.ends_bind, Eval.ends_ofExcept, hforget]
    show Eval.Ends _ (Eval.ofExcept (s.cache.erase r) >>= _) _ _
    rw [Eval.ends_bind, Eval.ends_ofExcept, hcache]
    obtain ⟨hself, hne⟩ := Tables.erase_values hcache
    exact fun _ => ⟨Tables.erase_had hcache, hself, hne, rfl, rfl⟩

theorem ends_hasResult {r : F.Request} (hs : s.Owned) (hr : s.registry.knows (F.kind r)) :
    Eval.Ends (fun _ => False) (Eval.hasResult r) s fun _ _ => True := by
  unfold Eval.hasResult Eval.cached?
  split
  · trivial
  · split
    · trivial
    · rw [Eval.ends_bind, Eval.ends_bind, Eval.ends_get, Eval.ends_ofExcept,
        Tables.get?_eq hs.1 Registry.knows_injective hr]
      trivial

/-- Where all computations are known, a command that evaluates and gives nothing ends. -/
theorem ends {rules : Rules F} (lawful : rules.Lawful) (he : ¬ c.IsEvaluate) (hp : ¬ c.IsPut)
    (hg : ¬ c.IsRegister) (hs : s.Owned) (hk : ∀ k, s.registry.knows k) (n : Nat) :
    Eval.Ends (fun _ => False) (c.run rules n) s fun _ s' => Effect c s s' := by
  have hends : Eval.Ends (fun _ => False) (c.run rules n) s fun _ _ => True := by
    cases c with
    | register zone kinds => exact absurd trivial hg
    | evaluate rs => exact absurd trivial he
    | put r out => exact absurd trivial hp
    | isCached r => exact Eval.ends_bind.2 (ends_hasResult hs (hk _))
    | clear r => exact Eval.ends_bind.2 ((ends_clearResult hs (hk _)).mono fun _ _ _ => trivial)
    | clearCache | references | statistics | dump | graphviz | report | diagnostics
    | takeDiagnostics => trivial
  obtain ⟨reply, s', hrun, -⟩ := hends.exists_ok
  have heffect := effect lawful he n s
  rw [Eval.final_of_ok hrun] at heffect
  rw [Eval.Ends, hrun]
  exact heffect

end Command

/-! ## Requests one after the other -/

namespace Rules

variable {rules : Rules F} {n : Nat}

/-- The call is within the evaluation of one of the requests. -/
def CallsIn (rules : Rules F) (n : Nat) : List F.Request → State F → Call F → Prop
  | [], _, _ => False
  | r :: rs, s, c => rules.Within ⟨n, [], r, s⟩ c ∨
    ∃ o s₁, rules.evaluate n [] r s = .ok o s₁ ∧ rules.CallsIn n rs s₁ c

theorem evaluateAll_cons {r : F.Request} {rs : List F.Request} {as : List (Answer F)}
    {s s' : State F} :
    rules.evaluateAll n (r :: rs) s = .ok as s' ↔ ∃ o s₁ rest, rules.evaluate n [] r s = .ok o s₁ ∧
      rules.evaluateAll n rs s₁ = .ok rest s' ∧ as = ⟨r, o⟩ :: rest := by
  rw [evaluateAll, Eval.bind_eq_ok]
  constructor
  · rintro ⟨o, s₁, ho, h⟩
    obtain ⟨rest, s₂, hrest, h⟩ := Eval.bind_eq_ok.1 h
    cases h
    exact ⟨o, s₁, rest, ho, hrest, rfl⟩
  · rintro ⟨o, s₁, rest, ho, hrest, rfl⟩
    exact ⟨o, s₁, ho, Eval.bind_eq_ok.2 ⟨rest, s', hrest, rfl⟩⟩

/-- What every evaluation from outside keeps, evaluations one after the other keep. -/
theorem evaluateAll_invariant {I : State F → Prop}
    (hI : ∀ r s o s', rules.evaluate n [] r s = .ok o s' → I s → I s') {rs : List F.Request}
    {as : List (Answer F)} {s s' : State F} (h : rules.evaluateAll n rs s = .ok as s') (hs : I s) :
    I s' := by
  induction rs generalizing s as with
  | nil =>
    cases h
    exact hs
  | cons r rs ih =>
    obtain ⟨o, s₁, rest, ho, hrest, -⟩ := evaluateAll_cons.1 h
    exact ih hrest (hI r s o s₁ ho hs)

/-- What holds wherever a request is asked for from outside, and at all calls within if it holds
there, holds at all calls. -/
theorem CallsIn.of_invariant {I : State F → Prop} {P : Call F → Prop}
    (hI : ∀ r s o s', rules.evaluate n [] r s = .ok o s' → I s → I s')
    (hP : ∀ r s c, I s → rules.Within ⟨n, [], r, s⟩ c → P c) {rs : List F.Request} {s : State F}
    {c : Call F} (h : rules.CallsIn n rs s c) (hs : I s) : P c := by
  induction rs generalizing s with
  | nil => exact h.elim
  | cons r rs ih =>
    rcases h with h | ⟨o, s₁, ho, h⟩
    · exact hP r s c hs h
    · exact ih h (hI r s o s₁ ho hs)

/-- Evaluations that end have all their calls answered. -/
theorem CallsIn.exists_answer {rs : List F.Request} {as : List (Answer F)} {s s' : State F}
    (h : rules.evaluateAll n rs s = .ok as s') {c : Call F} (hc : rules.CallsIn n rs s c) :
    ∃ o s', rules.answer c = .ok o s' := by
  induction rs generalizing s as with
  | nil => exact hc.elim
  | cons r rs ih =>
    obtain ⟨o, s₁, rest, ho, hrest, -⟩ := evaluateAll_cons.1 h
    rcases hc with hc | ⟨o', s₁', ho', hc⟩
    · exact hc.exists_answer ⟨o, s₁, ho⟩
    · rw [ho] at ho'
      cases ho'
      exact ih hrest hc

/-- The calls of evaluations one after the other are those of the first and those of the others. -/
theorem callsIn_cons {r : F.Request} {rs : List F.Request} {s s₁ : State F} {o : Outcome F r}
    (h : rules.evaluate n [] r s = .ok o s₁) {c : Call F} :
    rules.CallsIn n (r :: rs) s c ↔ rules.Within ⟨n, [], r, s⟩ c ∨ rules.CallsIn n rs s₁ c := by
  refine or_congr_right ⟨?_, fun hc => ⟨o, s₁, h, hc⟩⟩
  rintro ⟨o', s₂, h', hc⟩
  rw [h] at h'
  cases h'
  exact hc

/-- Every call is within the call of one of the requests from outside. -/
theorem CallsIn.exists_root {rs : List F.Request} {s : State F} {c : Call F}
    (h : rules.CallsIn n rs s c) : ∃ r ∈ rs, ∃ s₁, rules.Within ⟨n, [], r, s₁⟩ c := by
  induction rs generalizing s with
  | nil => exact h.elim
  | cons r rs ih =>
    rcases h with h | ⟨o, s₁, -, h⟩
    · exact ⟨r, List.mem_cons_self, s, h⟩
    · obtain ⟨r', hr', hw⟩ := ih h
      exact ⟨r', List.mem_cons_of_mem r hr', hw⟩

/-- Evaluations that end call all of their requests. -/
theorem exists_callsIn {rs : List F.Request} {as : List (Answer F)} {s s' : State F}
    (h : rules.evaluateAll n rs s = .ok as s') {r : F.Request} (hr : r ∈ rs) :
    ∃ c, rules.CallsIn n rs s c ∧ c.request = r := by
  induction rs generalizing s as with
  | nil => cases hr
  | cons q rs ih =>
    obtain ⟨o, s₁, rest, ho, hrest, -⟩ := evaluateAll_cons.1 h
    rcases List.mem_cons.1 hr with rfl | hr
    · exact ⟨_, .inl .refl, rfl⟩
    · obtain ⟨c, hc, hcr⟩ := ih hrest hr
      exact ⟨c, .inr ⟨o, s₁, ho, hc⟩, hcr⟩

/-- Evaluations one after the other file the references of the sources that are asked for. -/
theorem filed_evaluateAll {rs : List F.Request} {as : List (Answer F)} {s s' : State F}
    (h : rules.evaluateAll n rs s = .ok as s') (f : FileId) (ref : Reference) :
    ref ∈ s'.recorder.filed f ↔ ref ∈ s.recorder.filed f ∨
      ∃ c, rules.CallsIn n rs s c ∧ rules.Files f ref c := by
  induction rs generalizing s as with
  | nil =>
    cases h
    simp [CallsIn]
  | cons r rs ih =>
    obtain ⟨o, s₁, rest, ho, hrest, -⟩ := evaluateAll_cons.1 h
    rw [ih hrest, filed_evaluate ho]
    simp only [callsIn_cons ho, or_and_right, exists_or, or_assoc]

end Rules

end Demand
