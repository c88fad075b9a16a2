import Demand.Engine.Evaluate
import Demand.Proofs.Engine.Tables
import Mathlib.Tactic.Common

/-!
# What an evaluation does, part by part

An evaluation finds a cycle, serves a result, or computes one; a computation is what is done before
the body of the request runs (`Rules.begin`), the body, and what is done after it (`Rules.finish`):

    rules.evaluate (n + 1) stack r s = …                                      (evaluate_succ)

Each part is described once, by a relation between the state before and after it that says what
becomes of every field but the log: `Cycles`, `Serves`, `Enters` and `Leaves`. Whatever is proved
about evaluations is proved from these four.
-/

namespace Demand

variable {F : Family} {α β : Type}

/-! ## Looking at a state -/

/-- Whether the result is kept in the cache of the engine. -/
def Family.inEngine (F : Family) (r : F.Request) : Bool :=
  F.isKept r && !(F.policyOf r).isExternal

/-- Whether the result is kept in a store outside the engine. -/
def Family.inStore (F : Family) (r : F.Request) : Bool :=
  F.isKept r && (F.policyOf r).isExternal

/-- The references of the request are filed under the file. -/
def Family.FiledUnder (F : Family) (r : F.Request) (f : FileId) : Prop :=
  (F.policyOf r).isSource = true ∧ F.sourceFile r = some f

/-- A result that the engine keeps has references of its own. -/
theorem Family.opensScope_of_inEngine (F : Family) {r : F.Request} (h : F.inEngine r = true) :
    F.opensScope r = true := by
  have hkept : F.isKept r = true := (Bool.and_eq_true_iff.1 h).1
  simp [opensScope, hkept]

theorem Family.inEngine_of_inStore {r : F.Request} (h : F.inStore r) : F.inEngine r = false := by
  unfold inStore at h
  unfold inEngine
  rw [(Bool.and_eq_true_iff.1 h).2]
  simp

namespace State

def result? (s : State F) (r : F.Request) : Option (F.Output r) :=
  s.cache.value? r

def recorded? (s : State F) (r : F.Request) : Option Scope :=
  s.recorder.recorded.value? r

/-- The reference is recorded for the request. -/
def Records (s : State F) (r : F.Request) (ref : Reference) : Prop :=
  ∃ scope, s.recorded? r = some scope ∧ ref ∈ scope

/-- The result that asking for the request would be served with. -/
def served? (s : State F) (r : F.Request) : Option (F.Output r) :=
  if F.inEngine r then s.result? r else if F.inStore r then F.fetch r s.world else none

/-- The same, with the fault of a number that belongs to another kind. -/
def lookup (s : State F) (r : F.Request) : Except (Fault F) (Option (F.Output r)) :=
  if !F.isKept r then .ok none
  else if (F.policyOf r).isExternal then .ok (F.fetch r s.world)
  else s.cache.get? r

/-- Every table belongs to a kind with a known computation. -/
def Owned (s : State F) : Prop :=
  s.cache.Owned s.registry.knows ∧ s.recorder.recorded.Owned s.registry.knows

/-- The dependency graph after `r` is asked for. -/
def edge (s : State F) (stack : List F.Request) (r : F.Request) : Graph F.Request :=
  if s.options.buildGraph then
    match stack with
    | [] => s.graph.addRequest r
    | parent :: _ => s.graph.addDependency parent r
  else s.graph

theorem served?_of_inStore {s : State F} {r : F.Request} (h : F.inStore r) :
    s.served? r = F.fetch r s.world := by
  rw [served?, Family.inEngine_of_inStore h, if_neg Bool.false_ne_true, if_pos h]

theorem served?_of_lookup {s : State F} {r : F.Request} {v : Option (F.Output r)}
    (h : s.lookup r = .ok v) : s.served? r = v := by
  unfold lookup at h
  unfold served? Family.inEngine Family.inStore
  by_cases hk : F.isKept r
  · by_cases he : (F.policyOf r).isExternal
    · simpa [hk, he] using h
    · simp only [hk, he, Bool.not_true, Bool.false_eq_true, if_false] at h
      simp [hk, he, result?, Tables.get?_eq_ok h]
  · simpa [hk] using h

theorem lookup_error {s : State F} {r : F.Request} {f : Fault F} (h : s.lookup r = .error f)
    (q : F.Request) : f ≠ .alreadyCached q := by
  unfold lookup at h
  split at h
  · cases h
  · split at h
    · cases h
    · simp [Tables.get?_error h]

/-- A store outside the engine is looked up without a fault. -/
theorem lookup_of_inStore {s : State F} {r : F.Request} (h : F.inStore r) :
    s.lookup r = .ok (s.served? r) := by
  unfold Family.inStore at h
  obtain ⟨hk, he⟩ := Bool.and_eq_true_iff.1 h
  simp [lookup, served?, Family.inEngine, Family.inStore, hk, he]

/-- A result in the cache of the engine is found. -/
theorem lookup_of_result? {s : State F} {r : F.Request} (hr : F.inEngine r) {out : F.Output r}
    (h : s.result? r = some out) : s.lookup r = .ok (some out) := by
  unfold Family.inEngine at hr
  obtain ⟨hk, he⟩ := Bool.and_eq_true_iff.1 hr
  rw [Bool.not_eq_true'] at he
  simp only [lookup, hk, he, Bool.not_true, Bool.false_eq_true, if_false]
  exact Tables.get?_of_value? h

theorem lookup_eq {s : State F} (hs : s.Owned) {r : F.Request} (hr : s.registry.knows (F.kind r)) :
    s.lookup r = .ok (s.served? r) := by
  cases h : s.lookup r with
  | ok v => rw [served?_of_lookup h]
  | error f =>
    unfold lookup at h
    rw [Tables.get?_eq hs.1 Registry.knows_injective hr] at h
    split at h
    · cases h
    · split at h <;> cases h

end State

namespace Rules

variable (rules : Rules F)

/-- The result writes the reference to whoever asks for it. -/
def Sinks (r : F.Request) (out : F.Output r) (ref : Reference) : Prop :=
  (F.policyOf r).isSink = true ∧ ref ∈ rules.sinkReferences r out

/-- The world after it is told of the references of a result. -/
def told (r : F.Request) (out : F.Output r) (w : F.World) : F.World :=
  if (F.policyOf r).isSink then rules.sinkVisit r out w else w

end Rules

/-- The innermost scope, if one is open, gets exactly these references; the others stay. -/
inductive Grown (refs : Reference → Prop) : List Scope → List Scope → Prop
  | closed : Grown refs [] []
  | opened {scope scope' : Scope} {outer : List Scope} :
      (∀ ref, ref ∈ scope' ↔ ref ∈ scope ∨ refs ref) → Grown refs (scope :: outer) (scope' :: outer)

namespace Grown

variable {p q : Reference → Prop} {a b c : List Scope}

theorem rfl (h : ∀ ref, ¬ p ref) : Grown p a a := by
  cases a with
  | nil => exact .closed
  | cons scope outer => exact .opened fun ref => by simp [h ref]

theorem trans (h : Grown p a b) (h' : Grown q b c) : Grown (fun ref => p ref ∨ q ref) a c := by
  cases h with
  | closed => cases h'; exact .closed
  | opened hp =>
    cases h' with
    | opened hq =>
      refine .opened fun ref => ?_
      rw [hq, hp, or_assoc]

theorem congr (h : Grown p a b) (hpq : ∀ ref, p ref ↔ q ref) : Grown q a b := by
  cases h with
  | closed => exact .closed
  | opened hp =>
    refine .opened fun ref => ?_
    rw [hp, hpq]

theorem exists_of_cons {scope : Scope} {outer : List Scope} (h : Grown p (scope :: outer) b) :
    ∃ scope', b = scope' :: outer ∧ ∀ ref, ref ∈ scope' ↔ ref ∈ scope ∨ p ref := by
  cases h with
  | opened hp => exact ⟨_, Eq.refl _, hp⟩

theorem write (m : Recorder F) (refs : List Reference) :
    Grown (· ∈ refs) m.scopes (m.write refs).scopes := by
  unfold Recorder.write
  cases h : m.scopes with
  | nil => simp only [h]; exact .closed
  | cons scope outer => exact .opened fun ref => by simp

theorem merge (m : Recorder F) (refs : Scope) :
    Grown (· ∈ refs) m.scopes (m.merge refs).scopes := by
  unfold Recorder.merge
  cases h : m.scopes with
  | nil => simp only [h]; exact .closed
  | cons scope outer => exact .opened fun ref => by simp

end Grown

/-! ## An evaluation as a sequence of its parts -/

namespace Eval

theorem bind_apply {m : Eval F α} {f : α → Eval F β} {s s' : State F} {a : α}
    (h : m s = .ok a s') : (m >>= f) s = f a s' := by
  show EStateM.bind m f s = f a s'
  simp [EStateM.bind, h]

theorem bind_congr_apply {m m' : Eval F α} {f : α → Eval F β} {s : State F}
    (h : m s = m' s) : (m >>= f) s = (m' >>= f) s := by
  show EStateM.bind m f s = EStateM.bind m' f s
  simp [EStateM.bind, h]

theorem get_bind {f : State F → Eval F β} {s : State F} : (get >>= f) s = f s s := rfl

theorem bind_eq_ok {m : Eval F α} {f : α → Eval F β} {s s' : State F} {b : β} :
    (m >>= f) s = .ok b s' ↔ ∃ a s₁, m s = .ok a s₁ ∧ f a s₁ = .ok b s' := by
  show EStateM.bind m f s = .ok b s' ↔ _
  unfold EStateM.bind
  cases m s with
  | ok a s₁ => simp
  | error e s₁ => simp

theorem recordEdge_apply (stack : List F.Request) (r : F.Request) (s : State F) :
    recordEdge stack r s = .ok () { s with graph := s.edge stack r } := by
  unfold State.edge
  by_cases h : s.options.buildGraph
  · rw [if_pos h]
    exact congrArg (EStateM.Result.ok ()) (if_pos h)
  · rw [if_neg h]
    exact congrArg (EStateM.Result.ok ()) (if_neg h)

/-- Caching stores a result, or leaves the cache as it was: the table that is made first is one that
storing needs. -/
theorem cacheResult_eq (r : F.Request) (out : F.Output r) :
    cacheResult r out = (do
      let cache ← ofExcept ((← get).cache.insert r out)
      modify fun s => { s with cache := cache }) := by
  funext s
  have hinsert := Tables.insert_provide s.cache r out
  show (ofExcept ((s.cache.provide (F.kind r)).insert r out) >>= _)
      { s with cache := s.cache.provide (F.kind r) } = (ofExcept (s.cache.insert r out) >>= _) s
  rw [hinsert]
  cases hi : s.cache.insert r out with
  | ok cache => rfl
  | error f =>
    exact congrArg (fun cache => EStateM.Result.error (Stop.fault f) { s with cache := cache })
      (Tables.provide_of_insert_error hi)

end Eval

namespace Rules

variable (rules : Rules F)

/-- What is done before the body of a request runs. -/
def begin (stack : List F.Request) (r : F.Request) : Eval F Unit := do
  Eval.recordEdge stack r
  Eval.ofExcept ((← get).registry.check (F.kind r))
  Eval.log .trace s!"computing {F.text r}"
  if F.opensScope r then Eval.openScope

/-- Keeps the result of a request where results of its kind are kept. -/
def keep (r : F.Request) (out : F.Output r) : Eval F Unit :=
  if F.isKept r then
    if (F.policyOf r).isExternal then Eval.storeResult r out else Eval.cacheResult r out
  else pure ()

/-- Closes the scope of a request that has one of its own. -/
def closeOwn (r : F.Request) : Eval F Unit :=
  if F.opensScope r then Eval.closeScope r else pure ()

/-- What is done after the body of a request. -/
def finish (r : F.Request) (out : F.Output r) : Eval F Unit := do
  Eval.count r
  closeOwn r
  rules.writeSink r out
  keep r out
  fileSource r

/-- What is said when a result is served. -/
def hitText (r : F.Request) : String :=
  if (F.policyOf r).isExternal then s!"external cache hit for {F.text r}"
  else s!"cache hit for {F.text r}"

/-- What is done when a result is served. -/
def serve (stack : List F.Request) (r : F.Request) (out : F.Output r) : Eval F Unit := do
  Eval.recordEdge stack r
  Eval.log .trace (hitText r)
  rules.replay r out
  fileSource r

theorem produce_apply (run : (r : F.Request) → Eval F (F.Output r)) (r : F.Request)
    (s : State F) :
    rules.produce run r s =
      (match s.lookup r with
        | .error f => throw (.fault f)
        | .ok (some out) => do
          Eval.log .trace (hitText r)
          rules.replay r out
          return out
        | .ok none => do
          let out ← rules.compute run r
          keep r out
          return out : Eval F (F.Output r)) s := by
  unfold produce State.lookup keep hitText
  by_cases hk : F.isKept r
  · by_cases he : (F.policyOf r).isExternal
    · simp only [hk, he, Bool.not_true, Bool.false_eq_true, if_false, if_true, Eval.get_bind]
      cases F.fetch r s.world <;> rfl
    · simp only [hk, he, Bool.not_true, Bool.false_eq_true, if_false, if_true, Eval.cached?,
        bind_assoc, Eval.get_bind]
      cases s.cache.get? r with
      | error f => rfl
      | ok v => cases v <;> rfl
  · simp [hk]

theorem evaluate_succ (n : Nat) (stack : List F.Request) (r : F.Request) (s : State F) :
    rules.evaluate (n + 1) stack r s =
      (if r ∈ stack then do
        Eval.recordEdge stack r
        Eval.reportCycle stack r
        return .error ⟨r⟩
      else match s.lookup r with
        | .error f => do
          Eval.recordEdge stack r
          throw (.fault f)
        | .ok (some out) => do
          rules.serve stack r out
          return .ok out
        | .ok none => do
          begin stack r
          let out ← (rules.body r).run (rules.evaluate n (r :: stack)) (r :: stack)
          rules.finish r out
          return .ok out : Eval F (Outcome F r)) s := by
  have hedge := Eval.recordEdge_apply stack r s
  rw [evaluate]
  by_cases hs : r ∈ stack
  · simp only [hs, if_true]
  · simp only [hs, if_false]
    -- the edge changes nothing that a look-up reads
    have hl : State.lookup { s with graph := s.edge stack r } r = s.lookup r := rfl
    rw [Eval.bind_apply hedge, Eval.bind_congr_apply (produce_apply rules _ r _), hl]
    cases s.lookup r with
    | error f =>
      simp only
      rw [Eval.bind_apply hedge]
      rfl
    | ok v =>
      cases v with
      | some out =>
        simp only [serve, bind_assoc, pure_bind]
        rw [Eval.bind_apply hedge]
      | none =>
        by_cases ho : F.opensScope r
        · simp only [begin, compute, finish, closeOwn, ho, if_true, bind_assoc, pure_bind]
          rw [Eval.bind_apply hedge]
        · simp only [begin, compute, finish, closeOwn, ho, if_false, bind_assoc, pure_bind,
            Bool.false_eq_true]
          rw [Eval.bind_apply hedge]

end Rules

/-! ## Ending, and what a stop is allowed for -/

namespace Eval

variable {stops : Stop F → Prop} {s : State F} {Q Q' : α → State F → Prop}

/-- From `s`, the steps end with a result and a state for which `Q` holds, or stop for a reason
that `stops` allows. -/
def Ends (stops : Stop F → Prop) (m : Eval F α) (s : State F) (Q : α → State F → Prop) : Prop :=
  match m s with
  | .ok a s' => Q a s'
  | .error e _ => stops e

/-- Every fault is allowed, but for a result that is kept twice. -/
def Lenient (stops : Stop F → Prop) : Prop :=
  ∀ f, (∀ q, f ≠ .alreadyCached q) → stops (.fault f)

theorem ends_bind {m : Eval F α} {f : α → Eval F β} {Q : β → State F → Prop} :
    Ends stops (m >>= f) s Q ↔ Ends stops m s fun a s' => Ends stops (f a) s' Q := by
  show (match EStateM.bind m f s with | .ok b s' => Q b s' | .error e _ => stops e) ↔ _
  unfold EStateM.bind Ends
  cases m s <;> rfl

theorem ends_pure {a : α} : Ends stops (pure a) s Q ↔ Q a s := Iff.rfl

theorem ends_get {Q : State F → State F → Prop} : Ends stops get s Q ↔ Q s s := Iff.rfl

theorem ends_modify {f : State F → State F} {Q : Unit → State F → Prop} :
    Ends stops (modify f) s Q ↔ Q () (f s) := Iff.rfl

theorem ends_log {level : LogLevel} {text : String} {Q : Unit → State F → Prop} :
    Ends stops (log level text) s Q ↔ Q () { s with log := s.log.write level text } := Iff.rfl

theorem ends_ofExcept {x : Except (Fault F) α} :
    Ends stops (ofExcept x) s Q ↔
      match x with
      | .ok a => Q a s
      | .error f => stops (.fault f) := by
  cases x <;> rfl

theorem Ends.mono {m : Eval F α} (h : Ends stops m s Q) (hQ : ∀ a s', Q a s' → Q' a s') :
    Ends stops m s Q' := by
  unfold Ends at h ⊢
  cases hm : m s with
  | ok a s' => rw [hm] at h; exact hQ a s' h
  | error e s' => rw [hm] at h; exact h

theorem Ends.bind {m : Eval F α} {f : α → Eval F β} {P : β → State F → Prop}
    (h : Ends stops m s Q) (hf : ∀ a s', Q a s' → Ends stops (f a) s' P) :
    Ends stops (m >>= f) s P :=
  ends_bind.2 (h.mono hf)

theorem Ends.congr {m m' : Eval F α} (h : Ends stops m' s Q) (hm : m s = m' s) :
    Ends stops m s Q := by
  unfold Ends
  rw [hm]
  exact h

/-- Where no stop is allowed there is a result. -/
theorem Ends.exists_ok {m : Eval F α} (h : Ends (fun _ => False) m s Q) :
    ∃ a s', m s = .ok a s' ∧ Q a s' := by
  unfold Ends at h
  cases hm : m s with
  | ok a s' => rw [hm] at h; exact ⟨a, s', rfl, h⟩
  | error e s' => rw [hm] at h; exact h.elim

theorem Ends.of_ok {m : Eval F α} (h : Ends stops m s Q) {a : α} {s' : State F}
    (hm : m s = .ok a s') : Q a s' := by
  unfold Ends at h
  rw [hm] at h
  exact h

/-- The result for which `Q` holds is the one that there is. -/
theorem Ends.attach {m : Eval F α} (h : Ends stops m s Q) :
    Ends stops m s fun a s' => m s = .ok a s' ∧ Q a s' := by
  unfold Ends at h ⊢
  cases hm : m s with
  | ok a s' => rw [hm] at h; exact ⟨rfl, h⟩
  | error e s' => rw [hm] at h; exact h

end Eval

/-! ## The four things an evaluation can do -/

/-- What finding that the active request `r` depends on itself does. -/
structure Cycles (stack : List F.Request) (r : F.Request) (s s' : State F) : Prop where
  options : s'.options = s.options
  registry : s'.registry = s.registry
  cache : s'.cache = s.cache
  recorder : s'.recorder = s.recorder
  diagnostics : s'.diagnostics = s.diagnostics ++ Eval.cycleReport stack r
  statistics : s'.statistics = s.statistics
  graph : s'.graph = s.edge stack r
  world : s'.world = s.world

/-- What is done before the body of `r` runs. -/
structure Enters (stack : List F.Request) (r : F.Request) (s s' : State F) : Prop where
  known : s.registry.knows (F.kind r)
  options : s'.options = s.options
  registry : s'.registry = s.registry
  cache : s'.cache = s.cache
  scopes : s'.recorder.scopes =
    if F.opensScope r then [] :: s.recorder.scopes else s.recorder.scopes
  recorded : s'.recorder.recorded = s.recorder.recorded
  filed : s'.recorder.filed = s.recorder.filed
  diagnostics : s'.diagnostics = s.diagnostics
  statistics : s'.statistics = s.statistics
  graph : s'.graph = s.edge stack r
  world : s'.world = s.world

/-- What serving a result does. -/
structure Serves (rules : Rules F) (stack : List F.Request) (r : F.Request) (out : F.Output r)
    (s s' : State F) : Prop where
  options : s'.options = s.options
  registry : s'.registry = s.registry
  cache : s'.cache = s.cache
  scopes : Grown (fun ref => s.Records r ref ∨ rules.Sinks r out ref)
    s.recorder.scopes s'.recorder.scopes
  recorded : s'.recorder.recorded = s.recorder.recorded
  filed : ∀ f ref, ref ∈ s'.recorder.filed f ↔
    ref ∈ s.recorder.filed f ∨ F.FiledUnder r f ∧ s.Records r ref
  diagnostics : s'.diagnostics = s.diagnostics
  statistics : s'.statistics = s.statistics
  graph : s'.graph = s.edge stack r
  world : s'.world = rules.told r out s.world

/-- What is done after the body of `r`. -/
structure Leaves (rules : Rules F) (r : F.Request) (out : F.Output r) (s s' : State F) : Prop where
  options : s'.options = s.options
  registry : s'.registry = s.registry
  result_self : F.inEngine r → s'.result? r = some out
  result_of_ne : ∀ q, q ≠ r → s'.result? q = s.result? q
  cache : F.inEngine r = false → s'.cache = s.cache
  /-- A scope of its own is recorded, unless it is empty, and goes to the scope around it. -/
  own_scope : F.opensScope r → ∃ scope outer, s.recorder.scopes = scope :: outer ∧
    s'.recorded? r = (if scope = [] then none else some scope) ∧
    Grown (fun ref => ref ∈ scope ∨ rules.Sinks r out ref) outer s'.recorder.scopes
  no_scope : F.opensScope r = false →
    s'.recorder.recorded = s.recorder.recorded ∧
      Grown (rules.Sinks r out) s.recorder.scopes s'.recorder.scopes
  recorded_of_ne : ∀ q, q ≠ r → s'.recorded? q = s.recorded? q
  filed : ∀ f ref, ref ∈ s'.recorder.filed f ↔
    ref ∈ s.recorder.filed f ∨ F.FiledUnder r f ∧ s'.Records r ref
  diagnostics : s'.diagnostics = s.diagnostics
  statistics : s'.statistics =
    if s.options.collectStatistics then s.statistics.count (F.typeIdOf r) (F.nameOf r)
    else s.statistics
  graph : s'.graph = s.graph
  world : s'.world =
    if F.inStore r then F.store r out (rules.told r out s.world) else rules.told r out s.world
  cache_owned : s.cache.Owned s.registry.knows → s.registry.knows (F.kind r) →
    s'.cache.Owned s'.registry.knows
  recorded_owned : s.recorder.recorded.Owned s.registry.knows → s.registry.knows (F.kind r) →
    s'.recorder.recorded.Owned s'.registry.knows

namespace Recorder

@[simp] theorem write_recorded (m : Recorder F) (refs : List Reference) :
    (m.write refs).recorded = m.recorded := by
  unfold write
  cases m.scopes <;> rfl

@[simp] theorem write_filed (m : Recorder F) (refs : List Reference) :
    (m.write refs).filed = m.filed := by
  unfold write
  cases m.scopes <;> rfl

@[simp] theorem merge_recorded (m : Recorder F) (refs : Scope) :
    (m.merge refs).recorded = m.recorded := by
  unfold merge
  cases m.scopes <;> rfl

@[simp] theorem merge_filed (m : Recorder F) (refs : Scope) :
    (m.merge refs).filed = m.filed := by
  unfold merge
  cases m.scopes <;> rfl

/-- A scope that is closed is recorded for its request, unless it is empty, and goes to the scope
around it. -/
theorem closeScope_spec {m m' : Recorder F} {r : F.Request} {scope : Scope}
    (h : m.closeScope r = .ok (scope, m')) :
    ∃ outer, m.scopes = scope :: outer ∧ Grown (· ∈ scope) outer m'.scopes ∧
      m'.filed = m.filed ∧
      m'.recorded.value? r = (if scope = [] then none else some scope) ∧
      (∀ q, q ≠ r → m'.recorded.value? q = m.recorded.value? q) ∧
      ∀ known : F.Kind → Prop, m.recorded.Owned known → known (F.kind r) →
        m'.recorded.Owned known := by
  unfold closeScope at h
  cases hs : m.scopes with
  | nil => rw [hs] at h; cases h
  | cons sc outer =>
    rw [hs] at h
    cases sc with
    | nil =>
      simp only [List.isEmpty_nil, if_true, forget] at h
      cases he : m.recorded.erase r with
      | error f => rw [he] at h; cases h
      | ok bt =>
        obtain ⟨b, t⟩ := bt
        rw [he] at h
        cases h
        obtain ⟨hself, hother⟩ := Tables.erase_values he
        exact ⟨outer, rfl, .rfl (by simp), rfl, by simp [hself], hother,
          fun known hm _ => Tables.erase_owned hm he⟩
    | cons x xs =>
      simp only [List.isEmpty_cons, Bool.false_eq_true, if_false] at h
      rw [merge_recorded] at h
      cases hp : m.recorded.put r (x :: xs) with
      | error f => rw [hp] at h; cases h
      | ok t =>
        rw [hp] at h
        cases h
        obtain ⟨hself, hother⟩ := Tables.put_values hp
        exact ⟨outer, rfl, Grown.merge { m with scopes := outer } (x :: xs), merge_filed _ _,
          by simp [hself], hother,
          fun known hm hr => Tables.put_owned hm hr hp⟩

theorem closeScope_error {m : Recorder F} {r : F.Request} {f : Fault F}
    (h : m.closeScope r = .error f) (q : F.Request) : f ≠ .alreadyCached q := by
  unfold closeScope at h
  split at h
  next =>
    cases h
    simp
  next scope outer hs =>
    simp only [bind, Except.bind, pure, Except.pure] at h
    split at h
    · cases he : m.recorded.erase r with
      | error f' =>
        simp only [forget, he, bind, Except.bind] at h
        cases h
        simp [Tables.erase_error he]
      | ok x =>
        simp only [forget, he, bind, Except.bind, pure, Except.pure] at h
        cases h
    · rw [merge_recorded] at h
      cases hp : m.recorded.put r scope with
      | error f' =>
        simp only [hp] at h
        cases h
        simp [Tables.put_error hp]
      | ok x =>
        simp only [hp] at h
        cases h

theorem exists_closeScope {m : Recorder F} {r : F.Request} {scope : Scope} {outer : List Scope}
    (hs : m.scopes = scope :: outer) {known : F.Kind → Prop} (hm : m.recorded.Owned known)
    (inj : ∀ k k', known k → known k' → F.typeId k = F.typeId k' → k = k')
    (hr : known (F.kind r)) : ∃ m', m.closeScope r = .ok (scope, m') := by
  unfold closeScope
  rw [hs]
  cases scope with
  | nil =>
    obtain ⟨b, t, he⟩ := Tables.exists_erase hm inj hr
    simp only [List.isEmpty_nil, if_true, forget, he]
    exact ⟨_, rfl⟩
  | cons x xs =>
    obtain ⟨t, hp⟩ := Tables.exists_put hm inj hr (x :: xs)
    simp only [List.isEmpty_cons, Bool.false_eq_true, if_false, merge_recorded, hp]
    exact ⟨_, rfl⟩

end Recorder

namespace Eval

variable {stops : Stop F → Prop} {s : State F} {Q : Unit → State F → Prop}

theorem ends_recordEdge {stack : List F.Request} {r : F.Request} :
    Ends stops (recordEdge stack r) s Q ↔ Q () { s with graph := s.edge stack r } := by
  unfold Ends
  rw [recordEdge_apply]

theorem ends_reportCycle {stack : List F.Request} {r : F.Request}
    (h : ∀ log, Q () { s with log := log, diagnostics := s.diagnostics ++ cycleReport stack r }) :
    Ends stops (reportCycle stack r) s Q :=
  h _

theorem ends_count {r : F.Request} :
    Ends stops (count r) s Q ↔ Q () { s with statistics :=
      if s.options.collectStatistics then s.statistics.count (F.typeIdOf r) (F.nameOf r)
      else s.statistics } := by
  by_cases h : s.options.collectStatistics
  · show Q () (if s.options.collectStatistics = true then _ else s) ↔ _
    rw [if_pos h, if_pos h]
  · show Q () (if s.options.collectStatistics = true then _ else s) ↔ _
    rw [if_neg h, if_neg h]

theorem ends_closeScope {r : F.Request}
    (hok : Lenient stops ∨ ∃ x, s.recorder.closeScope r = .ok x)
    (h : ∀ log scope m, s.recorder.closeScope r = .ok (scope, m) →
      Q () { s with log := log, recorder := m }) :
    Ends stops (closeScope r) s Q := by
  unfold closeScope
  simp only [ends_bind, ends_get, ends_ofExcept]
  cases hc : s.recorder.closeScope r with
  | error f =>
    rcases hok with hok | ⟨x, hx⟩
    · exact hok f (Recorder.closeScope_error hc)
    · rw [hc] at hx; cases hx
  | ok x =>
    obtain ⟨scope, m⟩ := x
    by_cases he : scope.isEmpty
    · simp only [he, Bool.not_true, Bool.false_eq_true, if_false, ends_modify]
      exact h s.log scope m hc
    · simp only [he, Bool.not_false, if_true, ends_bind, ends_log, ends_modify]
      exact h _ scope m hc

/-- A result that is served again writes what was recorded for it. -/
theorem ends_replayRecorded {r : F.Request}
    (hok : Lenient stops ∨ ∃ v, s.recorder.recorded.get? r = .ok v)
    (h : ∀ log m, Grown (s.Records r) s.recorder.scopes m.scopes →
      m.recorded = s.recorder.recorded → m.filed = s.recorder.filed →
      Q () { s with log := log, recorder := m }) :
    Ends stops (replayRecorded r) s Q := by
  unfold replayRecorded Recorder.recorded?
  simp only [ends_bind, ends_get]
  by_cases he : s.recorder.scopes.isEmpty
  · simp only [he, Bool.not_true, Bool.false_eq_true, if_false, ends_pure]
    refine h s.log s.recorder ?_ rfl rfl
    rw [List.isEmpty_iff] at he
    rw [he]
    exact .closed
  · simp only [he, Bool.not_false, if_true, ends_bind, ends_ofExcept]
    cases hg : s.recorder.recorded.get? r with
    | error f =>
      rcases hok with hok | ⟨v, hv⟩
      · exact hok f (by simp [Tables.get?_error hg])
      · rw [hg] at hv; cases hv
    | ok v =>
      have hv : s.recorded? r = v := (Tables.get?_eq_ok hg).symm
      cases v with
      | none =>
        refine h s.log s.recorder (.rfl fun ref => ?_) rfl rfl
        rintro ⟨scope, hsc, -⟩
        rw [hv] at hsc
        cases hsc
      | some scope =>
        simp only [ends_bind, ends_log]
        refine h _ (s.recorder.merge scope) ?_ (Recorder.merge_recorded _ _)
          (Recorder.merge_filed _ _)
        refine (Grown.merge s.recorder scope).congr fun ref => ?_
        simp [State.Records, hv]

/-- The references recorded for a source are filed. -/
theorem ends_fileSource {r : F.Request}
    (hok : Lenient stops ∨ ∃ v, s.recorder.recorded.get? r = .ok v)
    (h : ∀ log filed,
      (∀ f ref, ref ∈ filed f ↔ ref ∈ s.recorder.filed f ∨ F.FiledUnder r f ∧ s.Records r ref) →
      Q () { s with log := log, recorder := { s.recorder with filed := filed } }) :
    Ends stops (Rules.fileSource r) s Q := by
  unfold Rules.fileSource
  by_cases hs : (F.policyOf r).isSource
  · simp only [hs, if_true]
    cases hf : F.sourceFile r with
    | none =>
      refine h s.log s.recorder.filed fun f ref => ?_
      simp [Family.FiledUnder, hf]
    | some file =>
      unfold fileRecorded Recorder.recorded?
      simp only [ends_bind, ends_get, ends_log, ends_ofExcept]
      cases hg : s.recorder.recorded.get? r with
      | error f =>
        rcases hok with hok | ⟨v, hv⟩
        · exact hok f (by simp [Tables.get?_error hg])
        · rw [hg] at hv; cases hv
      | ok v =>
        have hv : s.recorded? r = v := (Tables.get?_eq_ok hg).symm
        cases v with
        | none =>
          refine h _ s.recorder.filed fun f ref => ?_
          simp [State.Records, hv]
        | some scope =>
          refine h _ (s.recorder.fileUnder file scope).filed fun f ref => ?_
          rw [Recorder.mem_filed_fileUnder]
          simp [State.Records, Family.FiledUnder, hv, hs, hf, eq_comm]
  · simp only [hs, Bool.false_eq_true, if_false, ends_pure]
    refine h s.log s.recorder.filed fun f ref => ?_
    simp [Family.FiledUnder, hs]

theorem ends_writeSink {rules : Rules F} {r : F.Request} {out : F.Output r}
    (h : ∀ m : Recorder F, Grown (rules.Sinks r out) s.recorder.scopes m.scopes →
      m.recorded = s.recorder.recorded → m.filed = s.recorder.filed →
      Q () { s with recorder := m, world := rules.told r out s.world }) :
    Ends stops (rules.writeSink r out) s Q := by
  unfold Rules.writeSink
  unfold Rules.Sinks Rules.told at h
  by_cases hs : (F.policyOf r).isSink
  · simp only [hs, if_true, true_and] at h ⊢
    exact h (s.recorder.write (rules.sinkReferences r out)) (Grown.write _ _)
      (Recorder.write_recorded _ _) (Recorder.write_filed _ _)
  · simp only [hs, if_false, Bool.false_eq_true, false_and] at h ⊢
    exact h s.recorder (.rfl (by simp)) rfl rfl

end Eval

namespace Rules

variable {rules : Rules F} {stops : Stop F → Prop} {s : State F}

theorem ends_cycle {stack : List F.Request} {r : F.Request} :
    Eval.Ends stops (do
      Eval.recordEdge stack r
      Eval.reportCycle stack r
      return .error ⟨r⟩ : Eval F (Outcome F r)) s
      fun o s' => o = .error ⟨r⟩ ∧ Cycles stack r s s' := by
  rw [Eval.ends_bind, Eval.ends_recordEdge, Eval.ends_bind]
  exact Eval.ends_reportCycle fun log => ⟨rfl, rfl, rfl, rfl, rfl, rfl, rfl, rfl, rfl⟩

theorem ends_begin {stack : List F.Request} {r : F.Request}
    (hok : Eval.Lenient stops ∨ s.registry.knows (F.kind r)) :
    Eval.Ends stops (begin stack r) s fun _ s' => Enters stack r s s' := by
  unfold begin
  simp only [Eval.ends_bind, Eval.ends_recordEdge, Eval.ends_get, Eval.ends_ofExcept,
    Eval.ends_log]
  cases hc : s.registry.check (F.kind r) with
  | error f =>
    rcases hok with hok | hk
    · exact hok f (Registry.check_error hc)
    · rw [Registry.knows, hc] at hk; cases hk
  | ok _ =>
    by_cases ho : F.opensScope r
    · simp only [ho, if_true]
      exact ⟨hc, rfl, rfl, rfl, by simp only [ho, if_true]; rfl, rfl, rfl, rfl, rfl, rfl, rfl⟩
    · simp only [ho, Bool.false_eq_true, if_false, Eval.ends_pure]
      exact ⟨hc, rfl, rfl, rfl, by simp [ho], rfl, rfl, rfl, rfl, rfl, rfl⟩

theorem enters_of_begin {stack : List F.Request} {r : F.Request} {s s₁ : State F}
    (h : begin stack r s = .ok () s₁) : Enters stack r s s₁ := by
  have hends : Eval.Ends (fun _ => True) (begin stack r) s fun _ s' => Enters stack r s s' :=
    ends_begin (.inl fun _ _ => trivial)
  exact hends.of_ok h

theorem ends_serve {stack : List F.Request} {r : F.Request} {out : F.Output r}
    (hok : Eval.Lenient stops ∨ ∃ v, s.recorder.recorded.get? r = .ok v) :
    Eval.Ends stops (rules.serve stack r out) s fun _ s' => Serves rules stack r out s s' := by
  unfold serve replay
  simp only [Eval.ends_bind, Eval.ends_recordEdge, Eval.ends_log]
  refine Eval.ends_replayRecorded hok ?_
  intro log₁ m₁ hscopes₁ hrecorded₁ hfiled₁
  apply Eval.ends_writeSink
  intro m₂ hscopes₂ hrecorded₂ hfiled₂
  have hrecorded : m₂.recorded = s.recorder.recorded := hrecorded₂.trans hrecorded₁
  have hget : Eval.Lenient stops ∨ ∃ v, m₂.recorded.get? r = .ok v := by
    rw [hrecorded]
    exact hok
  refine Eval.ends_fileSource hget ?_
  intro log₃ filed₃ hfiled₃
  refine ⟨rfl, rfl, rfl, hscopes₁.trans hscopes₂, hrecorded, ?_, rfl, rfl, rfl, rfl⟩
  intro f ref
  have hrec : State.Records { s with recorder := m₂ } r ref ↔ s.Records r ref := by
    simp only [State.Records, State.recorded?, hrecorded]
  rw [← hrec, show s.recorder.filed = m₂.filed from (hfiled₂.trans hfiled₁).symm]
  exact hfiled₃ f ref

/-- What keeping the result of `r` does to the cache. -/
structure Caches (r : F.Request) (out : F.Output r) (t t' : Tables F F.Output) : Prop where
  value_self : F.inEngine r → t'.value? r = some out
  value_of_ne : ∀ q, q ≠ r → t'.value? q = t.value? q
  same : F.inEngine r = false → t' = t
  owned : ∀ known : F.Kind → Prop, t.Owned known → known (F.kind r) → t'.Owned known

theorem Caches.of_insert {r : F.Request} {out : F.Output r} {t t' : Tables F F.Output}
    (hr : F.inEngine r) (h : t.insert r out = .ok t') : Caches r out t t' where
  value_self _ := (Tables.insert_values h).1
  value_of_ne := (Tables.insert_values h).2
  same hr' := absurd hr (by simp [hr'])
  owned _ ht hk := Tables.insert_owned ht hk h

theorem Caches.of_outside {r : F.Request} {out : F.Output r} {t : Tables F F.Output}
    (hr : F.inEngine r = false) : Caches r out t t where
  value_self hr' := absurd hr' (by simp [hr])
  value_of_ne _ _ := rfl
  same _ := rfl
  owned _ ht _ := ht

/-- Keeping a result puts it where it is looked up. -/
theorem ends_keep {r : F.Request} {out : F.Output r} {Q : Unit → State F → Prop}
    (hok : F.inEngine r → ∀ f, s.cache.insert r out = .error f → stops (.fault f))
    (h : ∀ t, Caches r out s.cache t →
      Q () { s with
        cache := t, world := if F.inStore r then F.store r out s.world else s.world }) :
    Eval.Ends stops (keep r out) s Q := by
  unfold keep
  by_cases hk : F.isKept r
  · by_cases he : (F.policyOf r).isExternal
    · have hq := h s.cache (.of_outside (by simp [Family.inEngine, he]))
      rw [if_pos (by simp [Family.inStore, hk, he])] at hq
      simp only [hk, he, if_true]
      exact hq
    · have hin : F.inEngine r := by simp [Family.inEngine, hk, he]
      simp only [hk, he, if_true, Bool.false_eq_true, if_false, Eval.cacheResult_eq, Eval.ends_bind,
        Eval.ends_get, Eval.ends_ofExcept]
      cases hi : s.cache.insert r out with
      | error f => exact hok hin f hi
      | ok t =>
        have hq := h t (.of_insert hin hi)
        rw [if_neg (by simp [Family.inStore, he])] at hq
        exact hq
  · have hq := h s.cache (.of_outside (by simp [Family.inEngine, hk]))
    rw [if_neg (by simp [Family.inStore, hk])] at hq
    simpa only [hk, Bool.false_eq_true, if_false, Eval.ends_pure] using hq

/-- What closing the scope of `r`, if it has one of its own, does to the recorder. -/
structure Closes (r : F.Request) (m m' : Recorder F) : Prop where
  own_scope : F.opensScope r → ∃ scope outer, m.scopes = scope :: outer ∧
    m'.recorded.value? r = (if scope = [] then none else some scope) ∧
    Grown (· ∈ scope) outer m'.scopes
  no_scope : F.opensScope r = false → m' = m
  recorded_of_ne : ∀ q, q ≠ r → m'.recorded.value? q = m.recorded.value? q
  filed : m'.filed = m.filed
  owned : ∀ known : F.Kind → Prop, m.recorded.Owned known → known (F.kind r) →
    m'.recorded.Owned known

theorem ends_closeOwn {r : F.Request} {Q : Unit → State F → Prop}
    (hok : Eval.Lenient stops ∨ (F.opensScope r → ∃ x, s.recorder.closeScope r = .ok x))
    (h : ∀ log m, Closes r s.recorder m → Q () { s with log := log, recorder := m }) :
    Eval.Ends stops (closeOwn r) s Q := by
  unfold closeOwn
  cases ho : F.opensScope r with
  | true =>
    refine Eval.ends_closeScope (hok.imp id fun hx => hx ho) fun log scope m hc => h log m ?_
    obtain ⟨outer, hs, hgrown, hfiled, hself, hother, howned⟩ := Recorder.closeScope_spec hc
    exact ⟨fun _ => ⟨scope, outer, hs, hself, hgrown⟩, by simp [ho], hother, hfiled, howned⟩
  | false =>
    exact h s.log s.recorder
      ⟨by simp [ho], fun _ => rfl, fun _ _ => rfl, rfl, fun _ hm _ => hm⟩

theorem ends_finish {r : F.Request} {out : F.Output r}
    (hok : Eval.Lenient stops ∨ s.Owned ∧ s.registry.knows (F.kind r) ∧
      (F.opensScope r → s.recorder.scopes ≠ []))
    (hkeep : (∀ f, stops (.fault f)) ∨ (F.inEngine r → s.result? r = none)) :
    Eval.Ends stops (rules.finish r out) s fun _ s' => Leaves rules r out s s' := by
  unfold finish
  rw [Eval.ends_bind, Eval.ends_count, Eval.ends_bind]
  refine ends_closeOwn (hok.imp id ?_) ?_
  · rintro ⟨hown, hknown, hscope⟩ ho
    obtain ⟨scope, outer, hs⟩ := List.exists_cons_of_ne_nil (hscope ho)
    obtain ⟨m, hm⟩ := Recorder.exists_closeScope hs hown.2 Registry.knows_injective hknown
    exact ⟨_, hm⟩
  intro log₁ m₁ hcloses
  rw [Eval.ends_bind]
  apply Eval.ends_writeSink
  intro m₂ hscopes₂ hrecorded₂ hfiled₂
  rw [Eval.ends_bind]
  refine ends_keep ?_ ?_
  · intro he f hf
    rcases hkeep with hall | hnone
    · exact hall f
    · rcases hok with hlenient | ⟨hown, hknown, -⟩
      · exact hlenient f (by simp [Tables.insert_error (hnone he) hf])
      · obtain ⟨t, ht⟩ :=
          Tables.exists_insert hown.1 Registry.knows_injective hknown out (hnone he)
        rw [show s.cache.insert r out = .error f from hf] at ht
        cases ht
  intro t hcaches
  have howned : s.recorder.recorded.Owned s.registry.knows → s.registry.knows (F.kind r) →
      m₂.recorded.Owned s.registry.knows := by
    rw [hrecorded₂]
    exact hcloses.owned _
  refine Eval.ends_fileSource (hok.imp id ?_) ?_
  · rintro ⟨hown, hknown, -⟩
    exact ⟨_, Tables.get?_eq (howned hown.2 hknown) Registry.knows_injective hknown⟩
  intro log₃ filed₃ hfiled₃
  constructor
  case options => rfl
  case registry => rfl
  case result_self => exact hcaches.value_self
  case result_of_ne => exact hcaches.value_of_ne
  case cache => exact hcaches.same
  case own_scope =>
    intro ho
    obtain ⟨scope, outer, hs, hself, hgrown⟩ := hcloses.own_scope ho
    refine ⟨scope, outer, hs, ?_, hgrown.trans hscopes₂⟩
    show m₂.recorded.value? r = _
    rw [hrecorded₂, hself]
  case no_scope =>
    intro ho
    obtain rfl := hcloses.no_scope ho
    exact ⟨hrecorded₂, hscopes₂⟩
  case recorded_of_ne =>
    intro q hq
    show m₂.recorded.value? q = s.recorder.recorded.value? q
    rw [hrecorded₂]
    exact hcloses.recorded_of_ne q hq
  case filed =>
    intro f ref
    rw [← show m₂.filed = s.recorder.filed from hfiled₂.trans hcloses.filed]
    exact hfiled₃ f ref
  case diagnostics => rfl
  case statistics => rfl
  case graph => rfl
  case world => rfl
  case cache_owned => exact hcaches.owned _
  case recorded_owned => exact howned

/-- A result that is found is served. -/
theorem exists_serves {n : Nat} {stack : List F.Request} {r : F.Request} {out : F.Output r}
    (hr : r ∉ stack) (hl : s.lookup r = .ok (some out))
    (hrec : ∃ v, s.recorder.recorded.get? r = .ok v) :
    ∃ s', rules.evaluate (n + 1) stack r s = .ok (.ok out) s' ∧ Serves rules stack r out s s' := by
  have hends : Eval.Ends (fun _ => False) (rules.serve stack r out) s _ := ends_serve (.inr hrec)
  obtain ⟨_, s', hserve, hs⟩ := hends.exists_ok
  refine ⟨s', ?_, hs⟩
  rw [evaluate_succ, if_neg hr, hl]
  exact Eval.bind_eq_ok.2 ⟨(), s', hserve, rfl⟩

/-- A request whose computation is not known is served, or refused without a trace but in the
graph. -/
theorem evaluate_of_unknown (n : Nat) {r : F.Request} (hr : ¬ s.registry.knows (F.kind r))
    (hrec : ∃ v, s.recorder.recorded.get? r = .ok v) :
    (∃ e graph, rules.evaluate n [] r s = .error e { s with graph := graph }) ∨
      ∃ out s', rules.evaluate n [] r s = .ok (.ok out) s' ∧ s.served? r = some out ∧
        Serves rules [] r out s s' := by
  cases n with
  | zero => exact .inl ⟨.exhausted, s.graph, rfl⟩
  | succ n =>
    have hedge := Eval.recordEdge_apply [] r s
    cases hl : s.lookup r with
    | error f =>
      refine .inl ⟨.fault f, s.edge [] r, ?_⟩
      rw [evaluate_succ, if_neg List.not_mem_nil, hl]
      exact Eval.bind_apply hedge
    | ok v =>
      cases v with
      | some out =>
        obtain ⟨s', hevaluate, hserves⟩ := exists_serves (n := n) List.not_mem_nil hl hrec
        exact .inr ⟨out, s', hevaluate, State.served?_of_lookup hl, hserves⟩
      | none =>
        cases hc : s.registry.check (F.kind r) with
        | ok _ => exact absurd hc hr
        | error f =>
          refine .inl ⟨.fault f, s.edge [] r, ?_⟩
          rw [evaluate_succ, if_neg List.not_mem_nil, hl]
          simp only [begin, bind_assoc]
          rw [Eval.bind_apply hedge, Eval.get_bind]
          simp only [hc]
          rfl

end Rules

end Demand
