import Demand.Engine.Stepper
import Mathlib.Tactic.SplitIfs

/-!
# Runs of steps

What a run leaves behind (`Stepper.left`) and what can be collected along it (`Stepper.collect`).
Where steps from related states are reported alike and lead to related states (`Stepper.Matches`),
whole runs from related states are reported alike, one by one (`Stepper.Matches.run`), leave related
states (`Stepper.Matches.left`), and what does not see the difference collects the same
(`Stepper.Matches.collect`).
-/

namespace Demand.Stepper

variable {σ ι ρ α : Type} (m : Stepper σ ι ρ) {s s' : σ}

/-- The state after a step, if another can follow. -/
def next? (s : σ) (i : ι) : Option σ :=
  if m.goesOn i (m.step s i).1 then some (m.step s i).2 else none

theorem run_cons (s : σ) (i : ι) (steps : List ι) :
    m.run s (i :: steps) = (m.step s i).1 :: (m.next? s i).elim [] fun s' => m.run s' steps := by
  rw [run, next?]
  split_ifs <;> rfl

variable {m} in
theorem run_cons_of_goesOn {i : ι} (h : m.goesOn i (m.step s i).1) (steps : List ι) :
    m.run s (i :: steps) = (m.step s i).1 :: m.run (m.step s i).2 steps := by
  rw [run_cons, next?, if_pos h]
  rfl

/-- The state after steps one after the other, up to the last that is taken. -/
def left (s : σ) : List ι → σ
  | [] => s
  | i :: steps => (m.next? s i).elim (m.step s i).2 fun s' => left s' steps

/-- What there is to collect at steps one after the other, up to the last that is taken. -/
def collect (f : σ → ι → List α) (s : σ) : List ι → List α
  | [] => []
  | i :: steps => f s i ++ (m.next? s i).elim [] fun s' => collect f s' steps

/-- What each step establishes, whether or not another follows, is there after all of them. -/
theorem left_of_step {I : σ → Prop} (hstep : ∀ s i, I (m.step s i).2) (h : I s)
    (steps : List ι) : I (m.left s steps) := by
  induction steps generalizing s with
  | nil => exact h
  | cons i steps ih =>
    rw [left, next?]
    split_ifs
    · exact ih (hstep s i)
    · exact hstep s i

/-- Steps from states that `R` relates are reported as `Q` says, lead to states that `R` relates,
and go on together. -/
structure Matches (R : σ → σ → Prop) (Q : ι → ρ → ρ → Prop) : Prop where
  report {s s' : σ} (i : ι) : R s s' → Q i (m.step s i).1 (m.step s' i).1
  state {s s' : σ} (i : ι) : R s s' → R (m.step s i).2 (m.step s' i).2
  goesOn {i : ι} {a a' : ρ} : Q i a a' → m.goesOn i a = m.goesOn i a'

namespace Matches

variable {m} {R : σ → σ → Prop} {Q : ι → ρ → ρ → Prop}

/-- Both runs go on, or none does. -/
theorem next? (hm : m.Matches R Q) (h : R s s') (i : ι) :
    Option.Rel R (m.next? s i) (m.next? s' i) := by
  unfold Stepper.next?
  rw [hm.goesOn (hm.report i h)]
  split_ifs
  · exact .some (hm.state i h)
  · exact .none

/-- What holds where both runs end, and where both go on from related states, holds of both. -/
theorem elim_next? (hm : m.Matches R Q) (h : R s s') (i : ι) {C : α → α → Prop} {x x' : α}
    {f f' : σ → α} (hnone : C x x') (hsome : ∀ s s', R s s' → C (f s) (f' s')) :
    C ((m.next? s i).elim x f) ((m.next? s' i).elim x' f') := by
  have hnext := hm.next? h i
  generalize m.next? s i = o at hnext ⊢
  generalize m.next? s' i = o' at hnext ⊢
  cases hnext with
  | none => exact hnone
  | some hs => exact hsome _ _ hs

/-- The reports of the same steps match one by one. -/
theorem run (hm : m.Matches R Q) (h : R s s') {steps : List ι} {k : Nat} {i : ι}
    (hk : steps[k]? = some i) : Option.Rel (Q i) (m.run s steps)[k]? (m.run s' steps)[k]? := by
  induction steps generalizing s s' k with
  | nil => cases hk
  | cons j steps ih =>
    rw [run_cons, run_cons]
    cases k with
    | zero =>
      cases hk
      exact .some (hm.report i h)
    | succ k =>
      rw [List.getElem?_cons_succ, List.getElem?_cons_succ]
      exact hm.elim_next? h j (C := fun l l' => Option.Rel (Q i) l[k]? l'[k]?) .none
        fun _ _ hs => ih hs hk

/-- Where steps are reported the same, runs are. -/
theorem run_eq (hm : m.Matches R fun _ => Eq) (h : R s s') (steps : List ι) :
    m.run s steps = m.run s' steps := by
  induction steps generalizing s s' with
  | nil => rfl
  | cons i steps ih =>
    rw [run_cons, run_cons, hm.report i h]
    exact congrArg (_ :: ·) (hm.elim_next? h i rfl fun _ _ hs => ih hs)

/-- Where a step makes no difference to those after it, the run goes on as if it had not been
taken. -/
theorem run_cons_of_related (hm : m.Matches R fun _ => Eq) {i : ι}
    (hgoes : m.goesOn i (m.step s i).1) (hsame : R s (m.step s i).2) (steps : List ι) :
    m.run s (i :: steps) = (m.step s i).1 :: m.run s steps := by
  rw [run_cons_of_goesOn hgoes, hm.run_eq hsame steps]

theorem left (hm : m.Matches R Q) (h : R s s') (steps : List ι) :
    R (m.left s steps) (m.left s' steps) := by
  induction steps generalizing s s' with
  | nil => exact h
  | cons i steps ih => exact hm.elim_next? h i (hm.state i h) fun _ _ hs => ih hs

theorem collect (hm : m.Matches R Q) {f : σ → ι → List α}
    (hf : ∀ s s' i, R s s' → f s i = f s' i) (h : R s s') (steps : List ι) :
    m.collect f s steps = m.collect f s' steps := by
  induction steps generalizing s s' with
  | nil => rfl
  | cons i steps ih =>
    rw [Stepper.collect, Stepper.collect, hf s s' i h]
    exact congrArg (_ ++ ·) (hm.elim_next? h i rfl fun _ _ hs => ih hs)

end Matches

end Demand.Stepper
