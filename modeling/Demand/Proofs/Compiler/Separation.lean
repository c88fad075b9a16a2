import Demand.Proofs.Compiler.Session
import Demand.Proofs.Compiler.Twins
import Demand.Proofs.Engine.Layer

/-!
# Evaluations keep to their file

An evaluation asks only for requests about the file of its request. So the results of every other
file stay as they are, and readings are only added (`Aside`, `aside_evaluate`). Between two engines
that are similar for a file, the first may evaluate what it likes about other files
(`Similar.aside`), and both may drop results that are alike (`Similar.clears`), or all
(`Similar.of_none`).
-/

namespace Demand.Compiler

open Demand.Language

/-! ## Readings are only added -/

/-- The change takes no reading back. -/
def Advances (change : World → World) : Prop :=
  ∀ w, w.readings ≤ (change w).readings

section Bodies

theorem visits_report (f : SourceFile) (problem : Problem) :
    (reportProblem f problem).Visits Advances := by
  unfold reportProblem
  induction problem.diagnostics f with
  | nil => trivial
  | cons d ds ih => exact ih

theorem visits_parseModule (f : SourceFile) : (parseModule f).Visits Advances := by
  have hsay : (Task.say (F := family) .trace s!"parsing {f.name}").Visits Advances := trivial
  refine hsay.bind fun _ => ?_
  cases readDeclarations f.content with
  | error problem => exact (visits_report f problem).bind fun _ => trivial
  | ok ds => exact ⟨fun w => Nat.le_succ _, fun _ => trivial⟩

theorem visits_settle (f : SourceFile) (span : Span) (n : Int) :
    (settle f span n).Visits Advances := by
  unfold settle
  cases fitting n with
  | some v => trivial
  | none => exact (visits_report f _).bind fun _ => trivial

theorem visits_fold (f : SourceFile) (e : Expr) : (fold f e).Visits Advances := by
  induction e with
  | integer v span => trivial
  | name n span =>
    have hlookup : (Task.evaluateD (F := family) (.lookup f n) none).Visits Advances :=
      fun _ => trivial
    refine hlookup.bind fun d? => ?_
    cases d? with
    | some d => exact fun _ => trivial
    | none => exact (visits_report f _).bind fun _ => trivial
  | negate e span ih =>
    refine ih.bind fun v? => ?_
    cases v? with
    | some v => exact visits_settle f span (-v)
    | none => trivial
  | binary op l r span ihl ihr =>
    refine ihl.bind fun a? => ihr.bind fun b? => ?_
    cases a? with
    | none => trivial
    | some a =>
      cases b? with
      | none => trivial
      | some b => exact visits_settle f span (op.apply a b)

theorem visits_checkAll (f : SourceFile) (all ds : List Definition) :
    (checkAll f all ds).Visits Advances := by
  induction ds with
  | nil => trivial
  | cons d ds ih =>
    rw [checkAll]
    cases (Definition.find? all d.name).filter fun first => first ≠ d with
    | some first => exact (visits_report f _).bind fun _ => ih.bind fun _ => trivial
    | none =>
      have hvalue : (Task.evaluateD (F := family) (.value d) none).Visits Advances :=
        fun _ => trivial
      exact hvalue.bind fun _ => ih.bind fun _ => trivial

theorem visits_emitAll (ds : List Definition) : (emitAll ds).Visits Advances := by
  induction ds with
  | nil => trivial
  | cons d ds ih =>
    have hvalue : (Task.evaluateD (F := family) (.value d) none).Visits Advances := fun _ => trivial
    refine hvalue.bind fun v? => ?_
    cases v? with
    | none => trivial
    | some v => exact ih.bind fun _ => trivial

theorem visits_body (r : Request) : (rules.body r).Visits Advances := by
  cases r with
  | parseModule f => exact visits_parseModule f
  | lookup f name => exact fun _ => trivial
  | value d => exact visits_fold d.file d.declaration.value
  | check f =>
    have hparse : (Task.evaluateD (F := family) (.parseModule f) none).Visits Advances :=
      fun _ => trivial
    refine hparse.bind fun ds? => ?_
    cases ds? with
    | none => trivial
    | some ds => exact visits_checkAll f ds ds
  | emit f =>
    intro ok ds
    cases ok with
    | error c => trivial
    | ok b =>
      cases b with
      | false => trivial
      | true =>
        cases ds with
        | error c => trivial
        | ok ds? =>
          cases ds? with
          | none => trivial
          | some ds => exact (visits_emitAll ds).bind fun _ => trivial

end Bodies

/-! ## Files that are left aside -/

/-- Nothing changed about a file. -/
structure Aside (f : SourceFile) (s s' : State family) : Prop where
  results : ∀ q : Request, q.file = f → s'.result? q = s.result? q
  readings : s.world.readings ≤ s'.world.readings

namespace Aside

variable {f : SourceFile} {s s' s'' : State family}

theorem of_eq (hc : s'.cache = s.cache) (hw : s'.world = s.world) : Aside f s s' := by
  refine ⟨fun q _ => ?_, ?_⟩
  · rw [State.result?, hc]
    rfl
  · rw [hw]

theorem refl (s : State family) : Aside f s s :=
  of_eq rfl rfl

theorem trans (h : Aside f s s') (h' : Aside f s' s'') : Aside f s s'' :=
  ⟨fun q hq => (h'.results q hq).trans (h.results q hq), Nat.le_trans h.readings h'.readings⟩

theorem leaves {r : Request} (hr : r.file ≠ f) {out : r.Output} (h : Leaves rules r out s s') :
    Aside f s s' := by
  refine ⟨fun q hq => h.result_of_ne q ?_, ?_⟩
  · rintro rfl
    exact hr hq
  · rw [world_of_leaves h]

end Aside

/-- A task leaves the file aside if all answers do. -/
theorem safe_aside {α : Type} {f : SourceFile} {before : Request → State family → Prop}
    {after : (q : Request) → State family → Outcome family q → State family → Prop}
    {stack : List Request} {Q : α → State family → Prop}
    (hafter : ∀ q s o s', after q s o s' → Aside f s s') {t : Task family α} {s : State family}
    (h : t.Safe before after stack s Q) (hvisits : t.Visits Advances) :
    t.Safe before after stack s fun _ s' => Aside f s s' := by
  induction t generalizing s with
  | done a => exact .refl s
  | ask q next ih =>
    refine ⟨h.1, fun o s' ho => (ih o (h.2 o s' ho) (hvisits o)).mono fun _ _ haside => ?_⟩
    exact (hafter q s o s' ho).trans haside
  | record ref next ih => exact (ih h hvisits).mono fun _ _ => .trans (.of_eq rfl rfl)
  | report d next ih => exact (ih h hvisits).mono fun _ _ => .trans (.of_eq rfl rfl)
  | isActive q next ih => exact fun b hb => ih b (h b hb) (hvisits b)
  | current next ih => exact ih _ h (hvisits _)
  | log level text next ih => exact (ih h hvisits).mono fun _ _ => .trans (.of_eq rfl rfl)
  | visit change next ih =>
    exact (ih _ h (hvisits.2 _)).mono fun _ _ => .trans ⟨fun _ _ => rfl, hvisits.1 s.world⟩

/-- Evaluations of requests about other files leave the file aside. -/
def separating (limit : Nat) (f : SourceFile) : Layer (compiling limit) where
  before _ r _ := r.file ≠ f
  after _ _ s _ s' := Aside f s s'
  cycle := fun _ _ _ hc => .of_eq hc.cache hc.world
  hit := fun _ _ _ _ hserves => .of_eq hserves.cache (world_of_serves hserves)
  body := fun {n stack r s s₁} hb hf hr hnone hin => by
    have hsafe : (rules.body r).Safe ((compiling limit).before n (r :: stack))
        (fun q s o s' => Answers (r :: stack) q s o s' ∧
          (compiling limit).after (r :: stack) q s o s' ∧ Aside f s s') (r :: stack) s₁ _ :=
      ((compiling limit).body hb hr hnone hin).of_after fun q s o s' h => ⟨h.1, h.2.1⟩
    refine ((safe_aside (fun q s o s' h => h.2.2) hsafe (visits_body r)).of_before ?_).mono ?_
    · -- what a body asks for is about the file of its request
      rintro q s₂ ⟨hroom, -⟩
      rw [file_of_leads (hroom.linked.leads List.mem_cons_self)]
      exact hf
    · intro out s₂ haside s' hout
      have hentered : Aside f s s₁ := .of_eq hin.cache hin.world
      exact (hentered.trans haside).trans (.leaves hf hout)

theorem aside_evaluate {files : List SourceFile} {f : SourceFile} {r : Request}
    {o : Outcome family r} {s s' : State family} (hr : r.file ∈ files) (hs : Sits [] s)
    (hf : r.file ≠ f) (h : Compiler.evaluate files r s = .ok o s') : Aside f s s' := by
  have hends := (separating _ f).discipline.ends lawful (depth files s) [] r s
    ⟨⟨room_start hr s, hs.single r⟩, hf⟩
  exact (hends.of_ok h).2.2

/-! ## Similar engines -/

namespace Similar

variable {p : Pairing} {s t s' t' : State family}

theorem aside (h : Similar p s t) (hs : Aside p.left s s') : Similar p s' t := by
  constructor
  case results =>
    intro r r' hr
    rw [hs.results r hr.file_left]
    exact h.results r r' hr
  case below =>
    intro m hm
    exact Nat.lt_of_lt_of_le (h.below m hm) hs.readings
  case counted => exact h.counted
  case fresh =>
    intro d hd hreading
    rw [hs.results (.value d) hd]
    exact h.fresh d hd (Nat.le_trans hs.readings hreading)
  case fresh' => exact h.fresh'

/-- Results that are alike are dropped. -/
theorem clears (h : Similar p s t) {r r' : Request} (hr : r.Like p r') {had had' : Bool}
    (hs : Command.Clears r had s s') (ht : Command.Clears r' had' t t') :
    Similar p s' t' ∧ had = had' := by
  have hnone : ∀ {q : Request}, s.result? q = none → s'.result? q = none := by
    intro q hq
    by_cases hqr : q = r
    · rw [hqr]
      exact hs.result_self
    · rw [hs.result_of_ne q hqr, hq]
  have hnone' : ∀ {q : Request}, t.result? q = none → t'.result? q = none := by
    intro q hq
    by_cases hqr : q = r'
    · rw [hqr]
      exact ht.result_self
    · rw [ht.result_of_ne q hqr, hq]
  constructor
  · refine h.update hs.world ht.world (fun q q' hq => ?_) (fun d _ => hnone) fun d _ => hnone'
    by_cases hqr : q = r
    · have hqr' : q' = r' := (hq.eq_iff hr).1 hqr
      rw [hqr, hqr', hs.result_self, ht.result_self]
      exact .none
    · have hqr' : q' ≠ r' := fun he => hqr ((hq.eq_iff hr).2 he)
      rw [hs.result_of_ne q hqr, ht.result_of_ne q' hqr']
      exact h.results q q' hq
  · rw [hs.had_eq, ht.had_eq]
    have hrel := h.results r r' hr
    generalize s.result? r = x at hrel ⊢
    generalize t.result? r' = y at hrel ⊢
    cases hrel <;> rfl

/-- Engines that keep nothing about the file and its copy are similar. -/
theorem of_none (hs : ∀ q : Request, q.file = p.left → s.result? q = none)
    (ht : ∀ q : Request, q.file = p.right → t.result? q = none)
    (hbelow : ∀ m ∈ p.readings, m < s.world.readings)
    (hcounted : t.world.readings = p.readings.length) : Similar p s t where
  results r r' hr := by
    rw [hs r hr.file_left, ht r' hr.file_right]
    exact .none
  below := hbelow
  counted := hcounted
  fresh _ hd _ := hs _ hd
  fresh' _ hd _ := ht _ hd

end Similar

end Demand.Compiler
