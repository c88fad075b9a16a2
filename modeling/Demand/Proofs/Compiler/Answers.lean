import Demand.Proofs.Compiler.Meaning
import Demand.Proofs.Engine.Commands
import Mathlib.Data.List.Nodup

/-!
# The compiler answers with the meaning

Every result that the engine keeps for a request of the compiler is what the request should give
(`Correct`), also one that was computed while a cycle was found: a value that is asked for while it
is active is not there, and what needs it is not there either. Evaluations never run out of fuel: of
the active values all but the first were looked up, and no two of them have one name.
-/

namespace Demand.Compiler

open Demand.Language

/-! ## Rules without stores -/

theorem keeps {α : Type} (t : Task family α) : t.Keeps := by
  induction t with
  | done a => trivial
  | ask q next ih => exact ih
  | record ref next ih => exact ih
  | report d next ih => exact ih
  | isActive q next ih => exact ih
  | current next ih => exact ih
  | log level text next ih => exact ih
  | visit change next ih => exact ⟨fun _ _ => rfl, ih⟩

theorem lawful : rules.Lawful where
  body _ := keeps _
  sinkVisit _ _ _ _ := rfl
  fetch_store _ _ _ := .inr fun _ => rfl
  fetch_store_of_ne _ _ _ _ _ := rfl

/-! ## What holds at every call -/

/-- The definition whose value is asked for. -/
def Request.value? : Request → Option Definition
  | value d => some d
  | _ => none

/-- The definitions whose values are active. -/
def values (stack : List Request) : List Definition :=
  stack.filterMap Request.value?

/-- Every result that is served is what its request should give. -/
def Correct (s : State family) : Prop :=
  ∀ r out, s.served? r = some out → Meets r out

/-- What holds of the state under these active requests. -/
structure Sits (stack : List Request) (s : State family) : Prop where
  correct : Correct s
  owned : s.Owned
  known : ∀ k, s.registry.knows k
  /-- All active values but the first to be active were looked up. -/
  found : ∀ d ∈ (values stack).dropLast, s.served? (.lookup d.file d.name) = some (some d)

/-- The fuel that a request needs if so many values are active. -/
def Request.need (limit active : Nat) : Request → Nat
  | parseModule _ => 1
  | lookup .. => 2
  | value _ => limit + 4 - active
  | check _ => limit + 5
  | emit _ => limit + 6

/-- The active requests are different, each asked for by the next, and there is fuel enough. -/
structure Room (limit n : Nat) (stack : List Request) (r : Request) : Prop where
  linked : Linked Asks stack r
  nodup : stack.Nodup
  fits : (declarations r.file).length ≤ limit
  fuel : r.need limit (values stack).length ≤ n

/-- One definition is kept for a name, so two readings of a declaration were not both looked up. -/
theorem eq_of_found {d d' : Definition} {s : State family} (hfile : d.file = d'.file)
    (hd : s.served? (.lookup d.file d.name) = some (some d))
    (hd' : s.served? (.lookup d'.file d'.name) = some (some d'))
    (heq : d.declaration = d'.declaration) : d = d' := by
  have hname : d.name = d'.name := congrArg Declaration.name heq
  rw [hfile, hname, hd'] at hd
  exact (Option.some.inj (Option.some.inj hd)).symm

/-- Definitions that were looked up have different names. -/
theorem length_le_of_found {vs : List Definition} {f : SourceFile} {s : State family}
    (hc : Correct s) (hnodup : vs.Nodup) (hfile : ∀ d ∈ vs, d.file = f)
    (hfound : ∀ d ∈ vs, s.served? (.lookup d.file d.name) = some (some d)) :
    vs.length ≤ (declarations f).length := by
  have hmem : ∀ d ∈ vs, d.declaration ∈ declarations f := by
    intro d hd
    have hmeets := (hc _ _ (hfound d hd)).1
    rw [hfile d hd] at hmeets
    exact List.mem_of_find?_eq_some hmeets.symm
  have hinj : ∀ d ∈ vs, ∀ d' ∈ vs, d.declaration = d'.declaration → d = d' := by
    intro d hd d' hd' heq
    exact eq_of_found ((hfile d hd).trans (hfile d' hd').symm) (hfound d hd) (hfound d' hd') heq
  have hsub : vs.map Definition.declaration ⊆ declarations f := by
    intro d hd
    obtain ⟨d', hd', rfl⟩ := List.mem_map.1 hd
    exact hmem d' hd'
  have hle := (List.subperm_of_subset (List.Nodup.map_on hinj hnodup) hsub).length_le
  rwa [List.length_map] at hle

theorem nodup_values {stack : List Request} (h : stack.Nodup) : (values stack).Nodup := by
  refine h.filterMap fun r r' d hr hr' => ?_
  cases r with
  | value e =>
    cases r' with
    | value e' =>
      cases hr
      cases hr'
      rfl
    | parseModule | lookup | check | emit => cases hr'
  | parseModule | lookup | check | emit => cases hr

theorem mem_values {stack : List Request} {d : Definition} (h : d ∈ values stack) :
    .value d ∈ stack := by
  obtain ⟨r, hr, hd⟩ := List.mem_filterMap.1 h
  cases r with
  | value e =>
    cases hd
    exact hr
  | parseModule | lookup | check | emit => cases hd

theorem value_notMem {stack : List Request} (h : values stack = []) (d : Definition) :
    .value d ∉ stack := by
  intro hmem
  have hvalue : d ∈ values stack := List.mem_filterMap.2 ⟨_, hmem, rfl⟩
  rw [h] at hvalue
  cases hvalue

theorem file_of_leads {r q : Request} (h : Relation.TransGen Asks r q) : q.file = r.file := by
  induction h with
  | single h => exact h.file_eq
  | tail _ h ih => exact h.file_eq.trans ih

theorem file_of_values {stack : List Request} {r : Request} (h : Linked Asks stack r)
    {d : Definition} (hd : d ∈ values stack) : d.file = r.file :=
  (file_of_leads (h.leads (mem_values hd))).symm

/-- No value is active where a check or code is asked for. -/
theorem values_eq_nil {stack : List Request} {r : Request} (h : Linked Asks stack r)
    (hr : 2 < r.rank) : values (r :: stack) = [] := by
  rw [List.eq_nil_iff_forall_not_mem]
  intro d hd
  rcases List.mem_cons.1 (mem_values hd) with rfl | hd
  · exact absurd hr (by simp [Request.rank])
  · have hlt := rank_lt_of_leads (h.leads hd)
    have htwo : (Request.value d).rank = 2 := rfl
    omega

theorem mem_dropLast_cons {α : Type} {a b : α} {l : List α} (h : a ∈ l.dropLast) :
    a ∈ (b :: l).dropLast := by
  cases l with
  | nil => cases h
  | cons c l =>
    rw [List.dropLast_cons_cons]
    exact List.mem_cons_of_mem b h

theorem Sits.push {stack : List Request} {s : State family} (h : Sits stack s) {q : Request}
    (hq : q.value? = none) : Sits (q :: stack) s := by
  refine { h with found := fun d hd => h.found d ?_ }
  rwa [values, List.filterMap_cons_none hq] at hd

theorem Sits.push_value {stack : List Request} {s : State family} (h : Sits stack s)
    {d : Definition}
    (hd : values stack = [] ∨ s.served? (.lookup d.file d.name) = some (some d)) :
    Sits (.value d :: stack) s := by
  refine { h with found := fun d' hd' => ?_ }
  change d' ∈ (d :: values stack).dropLast at hd'
  cases hv : values stack with
  | nil =>
    rw [hv] at hd'
    cases hd'
  | cons e rest =>
    rw [hv, List.dropLast_cons_cons] at hd'
    rcases List.mem_cons.1 hd' with rfl | hd'
    · exact hd.resolve_left (by rw [hv]; simp)
    · exact h.found d' (by rw [hv]; exact hd')

theorem Sits.pop {stack : List Request} {r : Request} {s : State family}
    (h : Sits (r :: stack) s) : Sits stack s := by
  refine { h with found := fun d hd => h.found d ?_ }
  cases hr : r.value? with
  | none => rwa [values, List.filterMap_cons_none hr]
  | some e =>
    rw [values, List.filterMap_cons_some hr]
    exact mem_dropLast_cons hd

/-- There are no more active values than declarations, but for the one that was active first. -/
theorem Sits.length_values_le {stack : List Request} {s : State family} (h : Sits stack s)
    (hnodup : stack.Nodup) {f : SourceFile} (hfile : ∀ d ∈ values stack, d.file = f) :
    (values stack).length ≤ (declarations f).length + 1 := by
  have hle := length_le_of_found h.correct
    ((nodup_values hnodup).sublist (List.dropLast_sublist _))
    (fun d hd => hfile d (List.dropLast_subset _ hd)) h.found
  rw [List.length_dropLast] at hle
  omega

section Room

variable {limit n : Nat} {stack : List Request} {r q : Request} {s : State family}

/-- There is always fuel left. -/
theorem Room.pos (h : Room limit n stack r) (hs : Sits (r :: stack) s) : 0 < n := by
  have hfuel := h.fuel
  have hfits := h.fits
  have hactive := hs.pop.length_values_le h.nodup fun d => file_of_values h.linked
  cases r <;> simp only [Request.need] at hfuel <;> omega

theorem Room.push (h : Room limit (n + 1) stack r) (hs : Sits (r :: stack) s) (hr : r ∉ stack)
    (hq : Asks r q) : Room limit n (r :: stack) q := by
  refine ⟨h.linked.push hq, List.nodup_cons.2 ⟨hr, h.nodup⟩, by rw [hq.file_eq]; exact h.fits, ?_⟩
  have hfuel := h.fuel
  cases hq with
  | value_lookup d m =>
    have hfits : (declarations d.file).length ≤ limit := h.fits
    have hactive := hs.length_values_le (List.nodup_cons.2 ⟨hr, h.nodup⟩) fun e he => by
      rcases List.mem_cons.1 he with rfl | he
      · rfl
      · exact file_of_values h.linked he
    have hlen : (values (.value d :: stack)).length = (values stack).length + 1 := rfl
    rw [hlen] at hactive
    simp only [Request.need] at hfuel ⊢
    omega
  | @value_value d d' _ _ _ _ =>
    have hlen : (values (.value d :: stack)).length = (values stack).length + 1 := rfl
    simp only [Request.need, hlen] at hfuel ⊢
    omega
  | lookup_parse | check_parse | check_value | emit_check | emit_parse | emit_value =>
    simp only [Request.need] at hfuel ⊢
    omega

end Room

/-! ## What bodies rely on -/

theorem Sits.persists {stack : List Request} {s s' : State family} (h : Sits stack s)
    (hp : Persists stack s s') (hc : Correct s') : Sits stack s' where
  correct := hc
  owned := hp.owned h.owned
  known k := by rw [hp.registry]; exact h.known k
  found d hd := hp.served _ _ (h.found d hd)

theorem Sits.still {stack : List Request} {s s' : State family} (h : Sits stack s)
    (hs : Still s s') : Sits stack s' :=
  h.persists hs.frame.toPersists fun r out hr => h.correct r out ((hs.served? r).symm.trans hr)

theorem Sits.enters {stack stack' : List Request} {r : Request} {s s₁ : State family}
    (h : Sits stack s) (hin : Enters stack' r s s₁) : Sits stack s₁ :=
  h.persists hin.persists fun q out hq => h.correct q out ((hin.served? q).symm.trans hq)

theorem Correct.leaves {r : Request} {out : Request.Output r} {s s' : State family}
    (h : Correct s) (hout : Leaves rules r out s s') (hr : Meets r out) : Correct s' := by
  intro q v hq
  by_cases hqr : q = r
  · subst hqr
    rw [hout.served?_self lawful hq]
    exact hr
  · exact h q v ((hout.served?_of_ne lawful hqr).symm.trans hq)

/-- The answer to a request: what it should give, or an error if it is a value that is not there. -/
structure Answered (r : Request) (o : Outcome family r) (s : State family) : Prop where
  correct : Correct s
  meets : ∀ out, o = .ok out → Meets r out
  error : ∀ c, o = .error c → ∃ d, r = .value d ∧ ∀ v, ¬ d.Means v

/-- The task runs as it should, if the requests that it asks for are answered as they should be. -/
abbrev Runs {α : Type} (limit n : Nat) (stack : List Request) (t : Task family α)
    (s : State family) (Q : α → State family → Prop) : Prop :=
  t.Safe (fun q s => Room limit n stack q ∧ Sits (q :: stack) s)
    (fun q s o s' => Answers stack q s o s' ∧ Answered q o s') stack s Q

section Runs

variable {limit n : Nat} {stack : List Request} {s : State family}

theorem runs_report (hs : Sits stack s) (f : SourceFile) (p : Problem) :
    Runs limit n stack (reportProblem f p) s fun _ s' => Sits stack s' := by
  unfold reportProblem
  induction p.diagnostics f generalizing s with
  | nil => exact hs
  | cons d ds ih => exact ih (hs.still (Still.report s d))

theorem runs_say (hs : Sits stack s) (level : LogLevel) (text : String) :
    Runs limit n stack (Task.say level text) s fun _ s' => Sits stack s' :=
  hs.still (Still.log s level text)

/-- A request for anything but a value is answered with a result. -/
theorem runs_ask {α : Type} {q : Request} (hs : Sits stack s) (hq : q.value? = none)
    (hroom : Room limit n stack q) {next : Outcome family q → Task family α}
    {Q : α → State family → Prop}
    (hnext : ∀ out s', Sits stack s' → Meets q out →
      (family.inEngine q → s'.served? q = some out) → Runs limit n stack (next (.ok out)) s' Q) :
    Runs limit n stack (.ask q next) s Q := by
  refine ⟨⟨hroom, hs.push hq⟩, fun o s' ⟨hanswers, ho⟩ => ?_⟩
  cases o with
  | ok out =>
    exact hnext out s' (hs.persists hanswers.toPersists ho.correct) (ho.meets out rfl)
      (hanswers.kept out rfl)
  | error c =>
    obtain ⟨d, rfl, -⟩ := ho.error c rfl
    cases hq

theorem runs_evaluate {q : Request} (hs : Sits stack s) (hq : q.value? = none)
    (hroom : Room limit n stack q) :
    Runs limit n stack (Task.evaluate (F := family) q) s fun o s' =>
      Sits stack s' ∧ ∃ out, o = .ok out ∧ Meets q out :=
  runs_ask hs hq hroom fun out _ hs' hout _ => ⟨hs', out, rfl, hout⟩

theorem runs_parse {f : SourceFile} (hs : Sits stack s)
    (hroom : Room limit n stack (.parseModule f)) :
    Runs limit n stack (Task.evaluateD (F := family) (.parseModule f) none) s fun ds? s' =>
      Sits stack s' ∧ Meets (.parseModule f) ds? :=
  runs_ask hs rfl hroom fun _ _ hs' hout _ => ⟨hs', hout⟩

/-- A definition that was looked up can be looked up again. -/
theorem runs_lookup {f : SourceFile} {name : String} (hs : Sits stack s)
    (hroom : Room limit n stack (.lookup f name)) :
    Runs limit n stack (Task.evaluateD (F := family) (.lookup f name) none) s fun d? s' =>
      Sits stack s' ∧ Meets (.lookup f name) d? ∧ s'.served? (.lookup f name) = some d? :=
  runs_ask hs rfl hroom fun _ _ hs' hout hkept => ⟨hs', hout, hkept rfl⟩

/-- A value that is active is not there, as its default says. -/
theorem runs_value {d : Definition} (hs : Sits stack s)
    (hd : values stack = [] ∨ s.served? (.lookup d.file d.name) = some (some d))
    (hroom : Room limit n stack (.value d)) :
    Runs limit n stack (Task.evaluateD (F := family) (.value d) none) s fun v? s' =>
      Sits stack s' ∧ ∀ v, v? = some v ↔ d.Means v := by
  refine ⟨⟨hroom, hs.push_value hd⟩, fun o s' ⟨hframe, ho⟩ => ?_⟩
  refine ⟨hs.persists hframe.toPersists ho.correct, ?_⟩
  cases o with
  | ok out => exact ho.meets out rfl
  | error c =>
    obtain ⟨d', hd', hno⟩ := ho.error c rfl
    cases hd'
    intro v
    refine ⟨fun h => ?_, fun h => absurd h (hno v)⟩
    cases h

end Runs

end Demand.Compiler
