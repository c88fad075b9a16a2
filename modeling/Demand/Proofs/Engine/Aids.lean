import Demand.Proofs.Engine.Blindness
import Demand.Proofs.Engine.Order
import Mathlib.Data.List.Forall2

/-!
# What the debugging aids leave alone

Two engines that differ in their debugging aids, and in what these show (the log, the counts, the
graph), are alike (`Alike`). No step sees the difference (`unseen_alike`), so that the same requests
are computed in the same order (`Rules.computations_alike`).
-/

namespace Demand

variable {F : Family} {α β : Type} {o o' : Options}

/-- Engines with these debugging aids that differ at most in what the aids show. -/
structure Alike (o o' : Options) (s s' : State F) : Prop where
  aids : s.options = o
  aids' : s'.options = o'
  registry : s.registry = s'.registry
  cache : s.cache = s'.cache
  recorder : s.recorder = s'.recorder
  diagnostics : s.diagnostics = s'.diagnostics
  world : s.world = s'.world

/-- Counting and drawing an edge change what the aids show, and nothing else. -/
instance unseen_alike : Unseen (Alike (F := F) o o') where
  registry h := h.registry
  cache h := h.cache
  recorder h := h.recorder
  diagnostics h := h.diagnostics
  world h := h.world
  with_log h _ _ := ⟨h.aids, h.aids', h.registry, h.cache, h.recorder, h.diagnostics, h.world⟩
  with_registry h hg := ⟨h.aids, h.aids', hg, h.cache, h.recorder, h.diagnostics, h.world⟩
  with_cache h ht := ⟨h.aids, h.aids', h.registry, ht, h.recorder, h.diagnostics, h.world⟩
  with_recorder h hm := ⟨h.aids, h.aids', h.registry, h.cache, hm, h.diagnostics, h.world⟩
  with_diagnostics h hds := ⟨h.aids, h.aids', h.registry, h.cache, h.recorder, hds, h.world⟩
  with_world h hw := ⟨h.aids, h.aids', h.registry, h.cache, h.recorder, h.diagnostics, hw⟩
  counted {s s'} h r := by
    show Alike o o' (if s.options.collectStatistics then _ else s)
      (if s'.options.collectStatistics then _ else s')
    split <;> split <;>
      exact ⟨h.aids, h.aids', h.registry, h.cache, h.recorder, h.diagnostics, h.world⟩
  drawn h _ _ := ⟨h.aids, h.aids', h.registry, h.cache, h.recorder, h.diagnostics, h.world⟩

/-! ## Computations -/

open Eval

/-- It asks for the same requests, from engines that are alike. -/
theorem Task.moments_alike {evaluate : (r : F.Request) → Eval F (Outcome F r)}
    (hev : ∀ q, Blind (Alike o o') (evaluate q)) {stack : List F.Request} (t : Task F α)
    {s s' : State F} (h : Alike o o' s s') :
    List.Forall₂ (fun m m' : F.Request × State F => m.1 = m'.1 ∧ Alike o o' m.2 m'.2)
      (t.moments evaluate stack s) (t.moments evaluate stack s') := by
  induction t generalizing s s' with
  | done a => exact .nil
  | ask q next ih =>
    rw [moments, moments]
    refine .cons ⟨rfl, h⟩ ?_
    have hq := hev q s s' h
    generalize evaluate q s = x at hq ⊢
    generalize evaluate q s' = x' at hq ⊢
    cases hq with
    | ok ha hs =>
      subst ha
      exact ih _ hs
    | error hs => exact .nil
  | record ref next ih => exact ih (Unseen.with_recorder h (by rw [h.recorder]))
  | report d next ih => exact ih (Unseen.with_diagnostics h (by rw [h.diagnostics]))
  | isActive q next ih => exact ih _ h
  | current next ih => exact ih _ h
  | log level text next ih => exact ih (Unseen.with_log h _ _)
  | visit change next ih =>
    rw [moments, moments, h.world]
    exact ih _ (Unseen.with_world h rfl)

/-- What does not depend on the aids at any moment gives the same over moments that are alike. -/
theorem flatMap_alike {ms ms' : List (F.Request × State F)}
    (h : List.Forall₂ (fun m m' : F.Request × State F => m.1 = m'.1 ∧ Alike o o' m.2 m'.2) ms ms')
    {f : F.Request → State F → List β}
    (hf : ∀ q s s', Alike o o' s s' → f q s = f q s') :
    (ms.flatMap fun m => f m.1 m.2) = ms'.flatMap fun m => f m.1 m.2 := by
  induction h with
  | nil => rfl
  | cons hm _ ih => rw [List.flatMap_cons, List.flatMap_cons, ih, hm.1, hf _ _ _ hm.2]

namespace Rules

variable (rules : Rules F)

/-- Whether a request is computed does not depend on the aids. -/
theorem begun?_alike {stack : List F.Request} {r : F.Request} {s s' : State F}
    (h : Alike o o' s s') : Option.Rel (Alike o o') (begun? stack r s) (begun? stack r s') := by
  unfold begun?
  split
  · exact .none
  · rw [Unseen.lookup h]
    cases s'.lookup r with
    | error f => exact .none
    | ok v =>
      cases v with
      | some out => exact .none
      | none =>
        have hbegin : Agree (Alike o o') Eq (begin stack r s) (begin stack r s') :=
          blind_begin stack r s s' h
        generalize begin stack r s = x at hbegin ⊢
        generalize begin stack r s' = x' at hbegin ⊢
        cases hbegin with
        | ok _ hs => exact .some hs
        | error hs => exact .none

theorem computations_succ (n : Nat) (stack : List F.Request) (r : F.Request) (s : State F) :
    rules.computations (n + 1) stack r s =
      match begun? stack r s with
      | none => []
      | some s₁ => r ::
        ((rules.body r).moments (rules.evaluate n (r :: stack)) (r :: stack) s₁).flatMap
          fun m => rules.computations n (r :: stack) m.1 m.2 := by
  cases hs : begun? stack r s with
  | none => exact computations_of_not_begun hs
  | some s₁ => exact computations_of_begun hs

/-- The same requests are computed in the same order. -/
theorem computations_alike (n : Nat) (stack : List F.Request) (r : F.Request) {s s' : State F}
    (h : Alike o o' s s') :
    rules.computations n stack r s = rules.computations n stack r s' := by
  induction n generalizing stack r s s' with
  | zero =>
    rw [computations, computations, calls, calls]
    simp [Call.computes]
  | succ n ih =>
    have hbegun : Option.Rel (Alike o o') (begun? stack r s) (begun? stack r s') := begun?_alike h
    rw [computations_succ, computations_succ]
    generalize begun? stack r s = x at hbegun ⊢
    generalize begun? stack r s' = x' at hbegun ⊢
    cases hbegun with
    | none => rfl
    | some hs =>
      have hev : ∀ q, Blind (Alike o o') (rules.evaluate n (r :: stack) q) :=
        rules.blind_evaluate n (r :: stack)
      exact congrArg (r :: ·) (flatMap_alike (Task.moments_alike hev (rules.body r) hs)
        fun q _ _ h => ih (r :: stack) q h)

theorem computationsAll_alike (n : Nat) (rs : List F.Request) {s s' : State F}
    (h : Alike o o' s s') : rules.computationsAll n rs s = rules.computationsAll n rs s' := by
  induction rs generalizing s s' with
  | nil => rfl
  | cons r rs ih =>
    rw [computationsAll, computationsAll, rules.computations_alike n [] r h]
    have hr : Agree (Alike o o') Eq (rules.evaluate n [] r s) (rules.evaluate n [] r s') :=
      rules.blind_evaluate n [] r s s' h
    generalize rules.evaluate n [] r s = x at hr ⊢
    generalize rules.evaluate n [] r s' = x' at hr ⊢
    cases hr with
    | ok _ hs => exact congrArg (_ ++ ·) (ih hs)
    | error _ => rfl

end Rules

end Demand
