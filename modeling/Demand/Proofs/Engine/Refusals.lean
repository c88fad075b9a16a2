import Demand.Proofs.Engine.Blindness
import Demand.Proofs.Engine.Operations
import Demand.Proofs.Engine.Stepper

/-!
# What is refused leaves no trace

A result that is given by hand is refused for one of four reasons (`Refuses`), and computations if
they cannot be given together or if those of their zone are known (`register_error_iff`). What was
refused may have been written to the log, and nothing else is different afterwards
(`Command.upToLog_of_refused`): the table that was made ready for the result was there. No command
sees the log (`Command.blind_run`), so that all later commands are answered as if what was refused
had never been asked (`Command.replies_of_refused`).
-/

namespace Demand

variable {F : Family}

/-! ## Logs -/

/-- The engines differ at most in their logs. -/
def UpToLog (s s' : State F) : Prop :=
  ∃ log, s' = { s with log := log }

theorem upToLog_refl (s : State F) : UpToLog s s :=
  ⟨s.log, rfl⟩

/-- What is done to an engine does not depend on its log. -/
instance unseen_upToLog : Unseen (UpToLog (F := F)) where
  registry := by
    rintro s _ ⟨log, rfl⟩
    rfl
  cache := by
    rintro s _ ⟨log, rfl⟩
    rfl
  recorder := by
    rintro s _ ⟨log, rfl⟩
    rfl
  diagnostics := by
    rintro s _ ⟨log, rfl⟩
    rfl
  world := by
    rintro s _ ⟨log, rfl⟩
    rfl
  with_log := by
    rintro s _ ⟨_, rfl⟩ _ log
    exact ⟨log, rfl⟩
  with_registry := by
    rintro s _ g _ ⟨log, rfl⟩ rfl
    exact ⟨log, rfl⟩
  with_cache := by
    rintro s _ t _ ⟨log, rfl⟩ rfl
    exact ⟨log, rfl⟩
  with_recorder := by
    rintro s _ m _ ⟨log, rfl⟩ rfl
    exact ⟨log, rfl⟩
  with_diagnostics := by
    rintro s _ ds _ ⟨log, rfl⟩ rfl
    exact ⟨log, rfl⟩
  with_world := by
    rintro s _ w _ ⟨log, rfl⟩ rfl
    exact ⟨log, rfl⟩
  counted := by
    rintro s _ ⟨log, rfl⟩ r
    show UpToLog (if s.options.collectStatistics then _ else s)
      (if s.options.collectStatistics then _ else _)
    split
    · exact ⟨log, rfl⟩
    · exact ⟨log, rfl⟩
  drawn := by
    rintro s _ ⟨log, rfl⟩ stack r
    exact ⟨log, rfl⟩

namespace Command

open Eval

/-- Commands do the same and reply the same whatever is in the log. -/
theorem blind_run (rules : Rules F) (n : Nat) (c : Command F) : Blind UpToLog (c.run rules n) := by
  intro s s' h
  by_cases hc : c.ShowsAids
  · obtain ⟨log, rfl⟩ := h
    cases c with
    | statistics => exact .ok rfl ⟨log, rfl⟩
    | dump r => exact .ok rfl ⟨log, rfl⟩
    | graphviz => exact .ok rfl ⟨_, rfl⟩
    | _ => exact hc.elim
  · exact (agree_run rules n c h).mono fun _ _ ha => ha hc

/-- Answers commands, each of which may nest so many requests. What was done before a stop stays
done, and no stop is the last. -/
def replier (rules : Rules F) :
    Stepper (State F) (Nat × Command F) (Except (Stop F) (Reply F)) where
  step s c :=
    match c.2.run rules c.1 s with
    | .ok a s' => (.ok a, s')
    | .error e s' => (.error e, s')
  goesOn _ _ := true

/-- The replies to commands one after the other. -/
def replies (rules : Rules F) (cs : List (Nat × Command F)) (s : State F) :
    List (Except (Stop F) (Reply F)) :=
  (replier rules).run s cs

theorem matches_upToLog (rules : Rules F) : (replier rules).Matches UpToLog fun _ => Eq := by
  have hstep : ∀ {s s' : State F} (c : Nat × Command F), UpToLog s s' →
      ((replier rules).step s c).1 = ((replier rules).step s' c).1 ∧
        UpToLog ((replier rules).step s c).2 ((replier rules).step s' c).2 := by
    intro s s' c h
    have hrun := blind_run rules c.1 c.2 s s' h
    unfold replier
    dsimp only
    generalize c.2.run rules c.1 s = x at hrun ⊢
    generalize c.2.run rules c.1 s' = x' at hrun ⊢
    cases hrun with
    | ok ha hs =>
      subst ha
      exact ⟨rfl, hs⟩
    | error hs => exact ⟨rfl, hs⟩
  exact ⟨fun c h => (hstep c h).1, fun c h => (hstep c h).2, fun _ => rfl⟩

end Command

/-! ## Refusals -/

/-- Why the result of a request is refused: results of its kind are never kept, this one is not
kept, the number of the kind is used by another, or there is a result. -/
inductive Refuses (s : State F) (r : F.Request) : Fault F → Prop
  | never : (F.policyOf r).keeps = false → Refuses s r (.neverCached r)
  | optedOut : (F.policyOf r).keeps = true → F.admits r = false → Refuses s r (.optedOut r)
  | shared {k : F.Kind} : F.inEngine r → s.cache.owner? (F.typeIdOf r) = some k → k ≠ F.kind r →
    Refuses s r (.sharedTypeId (F.kind r))
  | already {out : F.Output r} : F.inEngine r → s.result? r = some out →
    Refuses s r (.alreadyCached r)

/-- A value is refused if its table belongs to another kind, or if there is one. -/
theorem Tables.insert_error_iff {V : F.Request → Type} {t : Tables F V} {r : F.Request} {v : V r}
    {f : Fault F} : t.insert r v = .error f ↔
      (∃ k, t.owner? (F.typeIdOf r) = some k ∧ k ≠ F.kind r ∧ f = .sharedTypeId (F.kind r)) ∨
        ∃ w, t.value? r = some w ∧ f = .alreadyCached r := by
  unfold insert
  cases he : t.entriesOf (F.kind r) with
  | error f' =>
    obtain rfl := entriesOf_error he
    obtain ⟨k, hk, hne⟩ := entriesOf_eq_error_iff.1 he
    have hnone : t.value? r = none := by
      cases hv : t.value? r with
      | none => rfl
      | some w =>
        have hget := get?_of_value? hv
        rw [get?, he] at hget
        cases hget
    simp only [hnone, bind, Except.bind]
    constructor
    · rintro ⟨⟩
      exact .inl ⟨k, hk, hne, rfl⟩
    · rintro (⟨_, _, _, rfl⟩ | ⟨_, ⟨⟩, _⟩)
      rfl
  | ok es =>
    have hvalue : t.value? r = Entries.find? r es := by rw [value?, entries_eq he]
    have howner : ∀ k, t.owner? (F.typeIdOf r) = some k → k = F.kind r := by
      intro k hk
      rcases owner?_of_ok he with hnone | hsome
      · rw [Family.typeIdOf, hnone] at hk
        cases hk
      · rw [Family.typeIdOf, hsome] at hk
        exact (Option.some.inj hk).symm
    rw [hvalue]
    simp only [bind, Except.bind]
    constructor
    · intro h
      split at h
      next w hw =>
        cases h
        exact .inr ⟨w, hw, rfl⟩
      next => cases h
    · rintro (⟨k, hk, hne, _⟩ | ⟨w, hw, rfl⟩)
      · exact absurd (howner k hk) hne
      · rw [hw]

namespace Eval

theorem error_of_map {α β : Type} {m : Eval F α} {f : α → β} {s s' : State F} {e : Stop F}
    (h : (m >>= fun a => pure (f a)) s = .error e s') : m s = .error e s' := by
  replace h : EStateM.bind m (fun a => pure (f a)) s = .error e s' := h
  unfold EStateM.bind at h
  cases hm : m s with
  | ok a s₁ =>
    rw [hm] at h
    cases h
  | error e₁ s₁ =>
    rw [hm] at h
    cases h
    rfl

/-- What giving a result does. -/
theorem putResult_apply (r : F.Request) (out : F.Output r) (s : State F) :
    putResult r out s =
      if (F.policyOf r).keeps = false then .error (.fault (.neverCached r)) s
      else if F.admits r = false then .error (.fault (.optedOut r)) s
      else
        let s₁ := { s with log := s.log.write .trace s!"caching output of {F.text r} by hand" }
        if (F.policyOf r).isExternal then .ok () { s₁ with world := F.store r out s.world }
        else
          match s.cache.insert r out with
          | .error f => .error (.fault f) s₁
          | .ok cache => .ok () { s₁ with cache := cache } := by
  unfold putResult
  cases hk : (F.policyOf r).keeps with
  | false => rfl
  | true =>
    cases ha : F.admits r with
    | false =>
      have hkept : F.isKept r = false := by simp [Family.isKept, ha]
      rw [hkept]
      rfl
    | true =>
      have hkept : F.isKept r = true := by simp [Family.isKept, hk, ha]
      rw [hkept, cacheResult_eq]
      cases (F.policyOf r).isExternal with
      | true => rfl
      | false =>
        cases hi : s.cache.insert r out with
        | error f =>
          show EStateM.bind (ofExcept (s.cache.insert r out)) _ _ = _
          rw [hi]
          rfl
        | ok cache =>
          show EStateM.bind (ofExcept (s.cache.insert r out)) _ _ = _
          rw [hi]
          rfl

/-- A result is only refused for these reasons, and then the log alone is different. -/
theorem refuses_of_putResult {r : F.Request} {out : F.Output r} {s s' : State F} {e : Stop F}
    (h : putResult r out s = .error e s') :
    (∃ f, e = .fault f ∧ Refuses s r f) ∧ UpToLog s s' := by
  rw [putResult_apply] at h
  split_ifs at h with hk ha he
  · cases h
    exact ⟨⟨_, rfl, .never hk⟩, upToLog_refl s⟩
  · cases h
    exact ⟨⟨_, rfl, .optedOut (Bool.eq_true_of_not_eq_false hk) ha⟩, upToLog_refl s⟩
  · have hin : F.inEngine r := by
      simp [Family.inEngine, Family.isKept, Bool.eq_true_of_not_eq_false hk,
        Bool.eq_true_of_not_eq_false ha, he]
    cases hi : s.cache.insert r out with
    | ok cache =>
      rw [hi] at h
      cases h
    | error f =>
      rw [hi] at h
      cases h
      refine ⟨⟨f, rfl, ?_⟩, _, rfl⟩
      rcases Tables.insert_error_iff.1 hi with ⟨k, hk, hne, rfl⟩ | ⟨w, hw, rfl⟩
      · exact .shared hin hk hne
      · exact .already hin hw

theorem putResult_of_inEngine {r : F.Request} (hr : F.inEngine r) {out : F.Output r} {s : State F}
    {f : Fault F} (hi : s.cache.insert r out = .error f) :
    ∃ s', putResult r out s = .error (.fault f) s' := by
  simp only [Family.inEngine, Family.isKept, Bool.and_eq_true, Bool.not_eq_true'] at hr
  obtain ⟨⟨hk, ha⟩, he⟩ := hr
  rw [putResult_apply, hk, ha, he, hi]
  exact ⟨_, rfl⟩

/-- For each of these reasons it is refused. -/
theorem putResult_of_refuses {s : State F} {r : F.Request} {f : Fault F} (h : Refuses s r f)
    (out : F.Output r) : ∃ s', putResult r out s = .error (.fault f) s' := by
  cases h with
  | never hk =>
    rw [putResult_apply, if_pos hk]
    exact ⟨s, rfl⟩
  | optedOut hk ha =>
    rw [putResult_apply, hk, if_neg (by simp), if_pos ha]
    exact ⟨s, rfl⟩
  | shared hin hk hne =>
    exact putResult_of_inEngine hin (Tables.insert_error_iff.2 (.inl ⟨_, hk, hne, rfl⟩))
  | already hin hw =>
    exact putResult_of_inEngine hin (Tables.insert_error_iff.2 (.inr ⟨_, hw, rfl⟩))

/-- What giving computations does. -/
theorem register_apply (zone : Zone) (kinds : List F.Kind) (s : State F) :
    register zone kinds s =
      match ZoneRules.ofKinds zone kinds with
      | .error f => .error (.fault f) s
      | .ok z =>
        match s.registry.install z with
        | .error f => .error (.fault f) s
        | .ok g => .ok z { s with
            log := s.log.write .debug
              s!"registered {z.size} request function(s) in zone {zone.name}"
            registry := g } := by
  unfold register
  cases ZoneRules.ofKinds zone kinds with
  | error f => rfl
  | ok z =>
    show EStateM.bind (ofExcept (s.registry.install z)) _ s = _
    dsimp only
    generalize s.registry.install z = x
    cases x with
    | error f => rfl
    | ok g => rfl

/-- Computations that are refused change nothing. -/
theorem eq_of_register {zone : Zone} {kinds : List F.Kind} {s s' : State F} {e : Stop F}
    (h : register zone kinds s = .error e s') : s' = s := by
  rw [register_apply] at h
  split at h
  · cases h
    rfl
  · split at h
    · cases h
      rfl
    · cases h

theorem zone_ofKinds {zone : Zone} {kinds : List F.Kind} {z : ZoneRules F}
    (h : ZoneRules.ofKinds zone kinds = .ok z) : z.zone = zone := by
  have hadd : ∀ (ks : List F.Kind) (z₀ z₁ : ZoneRules F), ks.foldlM ZoneRules.add z₀ = .ok z₁ →
      z₁.zone = z₀.zone := by
    intro ks
    induction ks with
    | nil =>
      rintro z₀ _ ⟨⟩
      rfl
    | cons k ks ih =>
      intro z₀ z₁ h
      rw [List.foldlM_cons] at h
      cases hk : z₀.add k with
      | error f => rw [hk] at h; cases h
      | ok z₂ =>
        rw [hk] at h
        rw [ih z₂ z₁ h]
        unfold ZoneRules.add at hk
        split_ifs at hk
        cases hk
        rfl
  exact hadd kinds ⟨zone, []⟩ z h

/-- Computations are refused if they cannot be given together, or if the zone is known. -/
theorem register_error_iff {zone : Zone} {kinds : List F.Kind} {s : State F} :
    (∃ e s', register zone kinds s = .error e s') ↔
      (∃ f, ZoneRules.ofKinds zone kinds = .error f) ∨ (s.registry.zone? zone).isSome := by
  rw [register_apply]
  cases hz : ZoneRules.ofKinds zone kinds with
  | error f => exact ⟨fun _ => .inl ⟨f, rfl⟩, fun _ => ⟨_, s, rfl⟩⟩
  | ok z =>
    have hzone := zone_ofKinds hz
    dsimp only
    rw [Registry.install, hzone]
    cases s.registry.zone? zone with
    | none => simp
    | some known => simp

end Eval

/-! ## Later commands -/

namespace Command

/-- What is refused leaves nothing but a line in the log. -/
theorem upToLog_of_refused {rules : Rules F} {n : Nat} {c : Command F} (hc : c.IsPut ∨ c.IsRegister)
    {s s' : State F} {e : Stop F} (h : c.run rules n s = .error e s') : UpToLog s s' := by
  cases c with
  | put r out =>
    have hput : Eval.putResult r out s = .error e s' :=
      Eval.error_of_map (f := fun _ => Reply.done) h
    exact (Eval.refuses_of_putResult hput).2
  | register zone kinds =>
    rw [Eval.eq_of_register (Eval.error_of_map h)]
    exact upToLog_refl s
  | _ => exact (hc.elim id id).elim

/-- All later commands are answered as if what is refused had never been asked. -/
theorem replies_of_refused {rules : Rules F} {n : Nat} {c : Command F} (hc : c.IsPut ∨ c.IsRegister)
    {s s' : State F} {e : Stop F} (h : c.run rules n s = .error e s')
    (cs : List (Nat × Command F)) : replies rules cs s' = replies rules cs s :=
  ((matches_upToLog rules).run_eq (upToLog_of_refused hc h) cs).symm

end Command

end Demand
