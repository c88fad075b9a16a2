import Demand.Proofs.Engine.Commands

/-!
# What the engine does not see

A difference between engines is unseen if the engines agree on the registry, the cache, the records,
the diagnostics and the world, and still differ no more than this after the same is done to these
(`Unseen`). Steps are blind to it if they take such engines to such engines, with the same result or
the same stop (`Eval.Blind`). All that an engine does is, up to evaluations at any depth:

    Eval.Blind A (rules.evaluate n stack r)                                     (blind_evaluate)

Commands are, but for the replies of those that show what the debugging aids collect
(`Command.agree_run`).
-/

namespace Demand

variable {F : Family} {α β : Type}

/-- Engines that are related differ in nothing that a step looks at, also after the same is done to
both. They may write different logs. -/
class Unseen (A : State F → State F → Prop) : Prop where
  registry {s s' : State F} : A s s' → s.registry = s'.registry
  cache {s s' : State F} : A s s' → s.cache = s'.cache
  recorder {s s' : State F} : A s s' → s.recorder = s'.recorder
  diagnostics {s s' : State F} : A s s' → s.diagnostics = s'.diagnostics
  world {s s' : State F} : A s s' → s.world = s'.world
  with_log {s s' : State F} : A s s' → ∀ log log' : Log,
    A { s with log := log } { s' with log := log' }
  with_registry {s s' : State F} {g g' : Registry F} : A s s' → g = g' →
    A { s with registry := g } { s' with registry := g' }
  with_cache {s s' : State F} {t t' : Tables F F.Output} : A s s' → t = t' →
    A { s with cache := t } { s' with cache := t' }
  with_recorder {s s' : State F} {m m' : Recorder F} : A s s' → m = m' →
    A { s with recorder := m } { s' with recorder := m' }
  with_diagnostics {s s' : State F} {ds ds' : Diagnostics} : A s s' → ds = ds' →
    A { s with diagnostics := ds } { s' with diagnostics := ds' }
  with_world {s s' : State F} {w w' : F.World} : A s s' → w = w' →
    A { s with world := w } { s' with world := w' }
  counted {s s' : State F} : A s s' → ∀ r : F.Request,
    A ((Eval.count r).final s) ((Eval.count r).final s')
  drawn {s s' : State F} : A s s' → ∀ (stack : List F.Request) (r : F.Request),
    A { s with graph := s.edge stack r } { s' with graph := s'.edge stack r }

variable {A : State F → State F → Prop}

theorem Unseen.lookup [Unseen A] {s s' : State F} (h : A s s') (r : F.Request) :
    s.lookup r = s'.lookup r := by
  rw [State.lookup, State.lookup, Unseen.cache h, Unseen.world h]

/-! ## Steps that do not see it -/

namespace Eval

/-- Both runs end, with results that are related, or both stop for the same reason, and the engines
are related as before. -/
inductive Agree (A : State F → State F → Prop) (R : α → α → Prop) :
    EStateM.Result (Stop F) (State F) α → EStateM.Result (Stop F) (State F) α → Prop
  | ok {a a' : α} {s s' : State F} : R a a' → A s s' → Agree A R (.ok a s) (.ok a' s')
  | error {e : Stop F} {s s' : State F} : A s s' → Agree A R (.error e s) (.error e s')

/-- The steps do the same to engines that are related. -/
def Blind (A : State F → State F → Prop) (m : Eval F α) : Prop :=
  ∀ s s', A s s' → Agree A Eq (m s) (m s')

theorem Agree.bind {R : α → α → Prop} {R' : β → β → Prop} {m m' : Eval F α}
    {f f' : α → Eval F β} {s s' : State F} (h : Agree A R (m s) (m' s'))
    (hf : ∀ a a' s s', R a a' → A s s' → Agree A R' (f a s) (f' a' s')) :
    Agree A R' ((m >>= f) s) ((m' >>= f') s') := by
  show Agree A R' (EStateM.bind m f s) (EStateM.bind m' f' s')
  unfold EStateM.bind
  generalize m s = x at h ⊢
  generalize m' s' = x' at h ⊢
  cases h with
  | ok ha hs => exact hf _ _ _ _ ha hs
  | error hs => exact .error hs

theorem Agree.mono {R R' : α → α → Prop} {x x' : EStateM.Result (Stop F) (State F) α}
    (h : Agree A R x x') (hR : ∀ a a', R a a' → R' a a') : Agree A R' x x' := by
  cases h with
  | ok ha hs => exact .ok (hR _ _ ha) hs
  | error hs => exact .error hs

/-- Both results are answers, which are related, or both are the same stop. -/
inductive Likewise (R : α → α → Prop) : Except (Stop F) α → Except (Stop F) α → Prop
  | ok {a a' : α} : R a a' → Likewise R (.ok a) (.ok a')
  | error {e : Stop F} : Likewise R (.error e) (.error e)

theorem Likewise.isOk_eq {R : α → α → Prop} {x x' : Except (Stop F) α} (h : Likewise R x x') :
    x.isOk = x'.isOk := by
  cases h <;> rfl

theorem Likewise.eq {R : α → α → Prop} {x x' : Except (Stop F) α} (h : Likewise R x x')
    (hR : ∀ a a', R a a' → a = a') : x = x' := by
  cases h with
  | ok ha => rw [hR _ _ ha]
  | error => rfl

theorem Blind.bind {m : Eval F α} {f : α → Eval F β} (hm : Blind A m)
    (hf : ∀ a, Blind A (f a)) : Blind A (m >>= f) := by
  intro s s' h
  refine (hm s s' h).bind ?_
  rintro a _ s₁ s₁' rfl hs
  exact hf a s₁ s₁' hs

theorem blind_pure (a : α) : Blind A (pure a : Eval F α) :=
  fun _ _ h => .ok rfl h

theorem blind_throw (e : Stop F) : Blind A (throw e : Eval F α) :=
  fun _ _ h => .error h

theorem blind_ofExcept (x : Except (Fault F) α) : Blind A (ofExcept x) := by
  cases x with
  | ok a => exact blind_pure a
  | error f => exact blind_throw (.fault f)

theorem blind_modify {f : State F → State F}
    (hf : ∀ s s', A s s' → A (f s) (f s')) : Blind A (modify f) :=
  fun s s' h => .ok rfl (hf s s' h)

variable [Unseen A]

theorem blind_log (level : LogLevel) (text : String) : Blind A (log level text : Eval F Unit) :=
  blind_modify fun _ _ h => Unseen.with_log h _ _

theorem blind_report (d : Diagnostic) : Blind A (report d : Eval F Unit) :=
  blind_modify fun _ _ h => Unseen.with_diagnostics h (by rw [Unseen.diagnostics h])

theorem blind_visit (change : F.World → F.World) : Blind A (visit change) :=
  fun _ _ h => .ok (Unseen.world h) (Unseen.with_world h (by rw [Unseen.world h]))

theorem blind_write (refs : List Reference) : Blind A (write refs : Eval F Unit) :=
  blind_modify fun _ _ h => Unseen.with_recorder h (by rw [Unseen.recorder h])

theorem blind_merge (scope : Scope) : Blind A (merge scope : Eval F Unit) :=
  blind_modify fun _ _ h => Unseen.with_recorder h (by rw [Unseen.recorder h])

theorem blind_openScope : Blind A (openScope : Eval F Unit) :=
  blind_modify fun _ _ h => Unseen.with_recorder h (by rw [Unseen.recorder h])

theorem blind_closeScope (r : F.Request) : Blind A (closeScope r) := by
  intro s s' h
  unfold closeScope
  rw [get_bind, get_bind, Unseen.recorder h]
  refine (blind_ofExcept _).bind (fun ⟨scope, recorder⟩ => ?_) s s' h
  have hset : Blind A (modify fun s => { s with recorder := recorder } : Eval F Unit) :=
    blind_modify fun _ _ h => Unseen.with_recorder h rfl
  dsimp only
  cases scope.isEmpty with
  | true => exact hset
  | false => exact (blind_log _ _).bind fun _ => hset

theorem blind_replayRecorded (r : F.Request) : Blind A (replayRecorded r) := by
  intro s s' h
  unfold replayRecorded
  rw [get_bind, get_bind, Unseen.recorder h]
  cases s'.recorder.scopes.isEmpty with
  | true => exact blind_pure () s s' h
  | false =>
    refine (blind_ofExcept _).bind (fun x => ?_) s s' h
    cases x with
    | none => exact blind_pure ()
    | some scope => exact (blind_log _ _).bind fun _ => blind_merge scope

theorem blind_fileRecorded (r : F.Request) (file : FileId) : Blind A (fileRecorded r file) := by
  refine (blind_log _ _).bind fun _ => ?_
  intro s s' h
  rw [get_bind, get_bind, Unseen.recorder h]
  refine (blind_ofExcept _).bind (fun x => ?_) s s' h
  cases x with
  | none => exact blind_pure ()
  | some scope => exact blind_modify fun _ _ h => Unseen.with_recorder h (by rw [Unseen.recorder h])

theorem blind_cached? (r : F.Request) : Blind A (cached? r) := by
  intro s s' h
  unfold cached?
  rw [get_bind, get_bind, Unseen.cache h]
  exact blind_ofExcept _ s s' h

theorem blind_cacheResult (r : F.Request) (out : F.Output r) :
    Blind A (cacheResult r out) := by
  intro s s' h
  rw [cacheResult_eq]
  rw [get_bind, get_bind, Unseen.cache h]
  refine (blind_ofExcept _).bind (fun t => ?_) s s' h
  exact blind_modify fun _ _ h => Unseen.with_cache h (rfl : t = t)

theorem blind_storeResult (r : F.Request) (out : F.Output r) : Blind A (storeResult r out) :=
  blind_modify fun _ _ h => Unseen.with_world h (by rw [Unseen.world h])

theorem blind_count (r : F.Request) : Blind A (count r) :=
  blind_modify fun _ _ h => Unseen.counted h r

theorem blind_recordEdge (stack : List F.Request) (r : F.Request) :
    Blind A (recordEdge stack r) := by
  intro s s' h
  rw [recordEdge_apply, recordEdge_apply]
  exact .ok rfl (Unseen.drawn h stack r)

/-- A cycle is reported the same, whether or not it is written to the log. -/
theorem blind_reportCycle (stack : List F.Request) (r : F.Request) :
    Blind A (reportCycle stack r) :=
  blind_modify fun _ _ h => Unseen.with_log
    (Unseen.with_diagnostics h (congrArg (· ++ cycleReport stack r) (Unseen.diagnostics h))) _ _

end Eval

/-! ## Evaluations -/

section Evaluate

open Eval

variable [Unseen A]

/-- A task is blind if the answers it gets are. -/
theorem Task.blind_run {evaluate : (r : F.Request) → Eval F (Outcome F r)}
    (hev : ∀ q, Blind A (evaluate q)) {stack : List F.Request} (t : Task F α) :
    Blind A (t.run evaluate stack) := by
  induction t with
  | done a => exact blind_pure a
  | ask q next ih => exact (hev q).bind ih
  | record ref next ih => exact (blind_write [ref]).bind fun _ => ih
  | report d next ih => exact (blind_report d).bind fun _ => ih
  | isActive q next ih => exact ih _
  | current next ih => exact ih _
  | log level text next ih => exact (blind_log level text).bind fun _ => ih
  | visit change next ih => exact (blind_visit change).bind ih

namespace Rules

variable (rules : Rules F)

theorem blind_writeSink (r : F.Request) (out : F.Output r) :
    Blind A (rules.writeSink r out) := by
  unfold writeSink
  split
  · exact (blind_visit _).bind fun _ => blind_write _
  · exact blind_pure ()

theorem blind_replay (r : F.Request) (out : F.Output r) : Blind A (rules.replay r out) :=
  (blind_replayRecorded r).bind fun _ => rules.blind_writeSink r out

theorem blind_begin (stack : List F.Request) (r : F.Request) : Blind A (begin stack r) := by
  refine (blind_recordEdge stack r).bind fun _ => ?_
  intro s s' h
  rw [get_bind, get_bind, Unseen.registry h]
  refine (blind_ofExcept _).bind (fun _ => (blind_log _ _).bind fun _ => ?_) s s' h
  cases F.opensScope r with
  | true => exact blind_openScope
  | false => exact blind_pure ()

theorem blind_fileSource (r : F.Request) : Blind A (fileSource r) := by
  unfold fileSource
  split
  · split
    next file _ => exact blind_fileRecorded r file
    next => exact blind_pure ()
  · exact blind_pure ()

theorem blind_serve (stack : List F.Request) (r : F.Request) (out : F.Output r) :
    Blind A (rules.serve stack r out) :=
  (blind_recordEdge stack r).bind fun _ => (blind_log _ _).bind fun _ =>
    (rules.blind_replay r out).bind fun _ => blind_fileSource r

theorem blind_keep (r : F.Request) (out : F.Output r) : Blind A (keep r out) := by
  unfold keep
  split
  · split
    · exact blind_storeResult r out
    · exact blind_cacheResult r out
  · exact blind_pure ()

theorem blind_closeOwn (r : F.Request) : Blind A (closeOwn r) := by
  unfold closeOwn
  split
  · exact blind_closeScope r
  · exact blind_pure ()

theorem blind_finish (r : F.Request) (out : F.Output r) : Blind A (rules.finish r out) :=
  (blind_count r).bind fun _ => (blind_closeOwn r).bind fun _ =>
    (rules.blind_writeSink r out).bind fun _ => (blind_keep r out).bind fun _ => blind_fileSource r

/-- Evaluation is blind, at any depth. -/
theorem blind_evaluate (n : Nat) (stack : List F.Request) (r : F.Request) :
    Blind A (rules.evaluate n stack r) := by
  induction n generalizing stack r with
  | zero => exact blind_throw .exhausted
  | succ n ih =>
    intro s s' h
    rw [evaluate_succ, evaluate_succ, Unseen.lookup h]
    by_cases hr : r ∈ stack
    · rw [if_pos hr]
      exact (blind_recordEdge stack r).bind (fun _ => (blind_reportCycle stack r).bind fun _ =>
        blind_pure _) s s' h
    · rw [if_neg hr]
      cases s'.lookup r with
      | error f => exact (blind_recordEdge stack r).bind (fun _ => blind_throw _) s s' h
      | ok v =>
        cases v with
        | some out => exact (rules.blind_serve stack r out).bind (fun _ => blind_pure _) s s' h
        | none =>
          refine (blind_begin stack r).bind (fun _ => ?_) s s' h
          refine (Task.blind_run (fun q => ih (r :: stack) q) (rules.body r)).bind fun out => ?_
          exact (rules.blind_finish r out).bind fun _ => blind_pure _

end Rules

theorem Rules.blind_evaluateAll (rules : Rules F) (n : Nat) (rs : List F.Request) :
    Blind A (rules.evaluateAll n rs) := by
  induction rs with
  | nil => exact blind_pure []
  | cons r rs ih =>
    exact (rules.blind_evaluate n [] r).bind fun _ => ih.bind fun _ => blind_pure _

end Evaluate

/-! ## Commands -/

variable [Unseen A]

namespace Eval

theorem blind_register (zone : Zone) (kinds : List F.Kind) :
    Blind A (register zone kinds : Eval F (ZoneRules F)) := by
  refine (blind_ofExcept _).bind fun z => ?_
  intro s s' h
  rw [get_bind, get_bind, Unseen.registry h]
  refine (blind_ofExcept _).bind (fun g => (blind_log _ _).bind fun _ => ?_) s s' h
  refine (blind_modify fun s s' h => ?_).bind fun _ => blind_pure z
  exact Unseen.with_registry h (rfl : g = g)

theorem blind_putResult (r : F.Request) (out : F.Output r) : Blind A (putResult r out) := by
  unfold putResult
  have hkeep : Blind A
      (if (F.policyOf r).isExternal then storeResult r out else cacheResult r out) := by
    split
    · exact blind_storeResult r out
    · exact blind_cacheResult r out
  cases (F.policyOf r).keeps with
  | false => exact blind_throw _
  | true =>
    cases F.isKept r with
    | false => exact blind_throw _
    | true => exact (blind_log _ _).bind fun _ => hkeep

theorem blind_clearResult (r : F.Request) : Blind A (clearResult r) := by
  unfold clearResult
  cases (F.policyOf r).isExternal with
  | true => exact blind_pure false
  | false =>
    simp only [Bool.false_eq_true, if_false]
    intro s s' h
    rw [get_bind, get_bind, Unseen.recorder h]
    refine (blind_ofExcept _).bind (fun m => ?_) s s' h
    refine (blind_modify fun _ _ h => Unseen.with_recorder h (rfl : m = m)).bind fun _ => ?_
    intro s s' h
    rw [get_bind, get_bind, Unseen.cache h]
    refine (blind_ofExcept _).bind (fun ⟨had, t⟩ => ?_) s s' h
    exact (blind_modify fun _ _ h => Unseen.with_cache h (rfl : t = t)).bind fun _ => blind_pure had

theorem blind_hasResult (r : F.Request) : Blind A (hasResult r) := by
  unfold hasResult
  split
  · exact blind_pure false
  · split
    · intro s s' h
      rw [get_bind, get_bind, Unseen.world h]
      exact blind_pure _ s s' h
    · exact (blind_cached? r).bind fun _ => blind_pure _

theorem blind_clearCache : Blind A (clearCache : Eval F Unit) := by
  intro s s' h
  unfold clearCache
  rw [get_bind, get_bind, Unseen.cache h]
  refine (blind_log _ _).bind (fun _ => blind_modify fun s s' h => ?_) s s' h
  exact Unseen.with_recorder (Unseen.with_cache h (congrArg Tables.clear (Unseen.cache h)))
    (congrArg Recorder.forgetAll (Unseen.recorder h))

end Eval

/-- The command shows what the aids collect. -/
def Command.ShowsAids : Command F → Prop
  | statistics | dump _ | graphviz => True
  | _ => False

open Eval in
/-- Commands do the same, and reply the same unless they show what the aids collect. -/
theorem Command.agree_run (rules : Rules F) (n : Nat) (c : Command F) {s s' : State F}
    (h : A s s') :
    Agree A (fun a a' => ¬ c.ShowsAids → a = a') (c.run rules n s) (c.run rules n s') := by
  have hsame : ∀ {m : Eval F (Reply F)}, Blind A m →
      Agree A (fun a a' => ¬ c.ShowsAids → a = a') (m s) (m s') :=
    fun hm => (hm s s' h).mono fun _ _ ha _ => ha
  cases c with
  | register zone kinds => exact hsame ((blind_register zone kinds).bind fun _ => blind_pure _)
  | evaluate rs => exact hsame ((rules.blind_evaluateAll n rs).bind fun _ => blind_pure _)
  | put r out => exact hsame ((blind_putResult r out).bind fun _ => blind_pure _)
  | isCached r => exact hsame ((blind_hasResult r).bind fun _ => blind_pure _)
  | clear r => exact hsame ((blind_clearResult r).bind fun _ => blind_pure _)
  | clearCache => exact hsame (blind_clearCache.bind fun _ => blind_pure _)
  | report d => exact hsame ((blind_report d).bind fun _ => blind_pure _)
  | references file =>
    rw [run, get_bind, get_bind, Unseen.recorder h]
    exact hsame (blind_pure _)
  | diagnostics =>
    rw [run, get_bind, get_bind, Unseen.diagnostics h]
    exact hsame (blind_pure _)
  | takeDiagnostics =>
    rw [run, get_bind, get_bind, Unseen.diagnostics h]
    have hset : Blind A (modify fun s => { s with diagnostics := [] } : Eval F Unit) :=
      blind_modify fun _ _ h => Unseen.with_diagnostics h rfl
    exact hsame (hset.bind fun _ => blind_pure _)
  | statistics | dump | graphviz =>
    exact .ok (fun hshows => absurd trivial hshows) (Unseen.with_log h _ _)

end Demand
