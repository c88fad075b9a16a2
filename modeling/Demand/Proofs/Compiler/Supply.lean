import Demand.Proofs.Compiler.Answers
import Demand.Proofs.Engine.Layer

/-!
# Evaluations end whatever is cached

Results can be given by hand, so that a name looked up in one file is found in another and a value
that is served is no meaning. Evaluations end all the same. A request asks for requests of a lower
rank, and a value for values of definitions that it looked up (`Below`). Of the active values all
but the first were looked up, no two are the same, and there are not many definitions that can be
looked up: those in the cache, and those that are still to be read (`Supply`).

Together this is a discipline without stops (`enduring`), over any results in the cache.
-/

namespace Demand.Compiler

open Demand.Language

/-! ## What bodies ask for in any case -/

/-- The second request has a lower rank, or both are values. -/
def Below (r q : Request) : Prop :=
  q.rank < r.rank ∨ r.rank = 2 ∧ q.rank = 2

theorem below_of_leads {r q : Request} (h : Relation.TransGen Below r q) : Below r q := by
  induction h with
  | single h => exact h
  | tail _ h ih =>
    unfold Below at h ih ⊢
    omega

/-- A request that leads to itself is for a value. -/
theorem value_of_leads {r : Request} (h : Relation.TransGen Below r r) : ∃ d, r = .value d := by
  have hself := below_of_leads h
  cases r with
  | value d => exact ⟨d, rfl⟩
  | parseModule | lookup | check | emit => simp [Below, Request.rank] at hself

/-! ## Definitions that can be looked up -/

/-- How many declarations of the files are still to be read. -/
def unread (fs : List SourceFile) (s : State family) : Nat :=
  match fs with
  | [] => 0
  | f :: fs =>
    (if (s.served? (.parseModule f)).isNone then (declarations f).length else 0) + unread fs s

theorem unread_append (fs gs : List SourceFile) (s : State family) :
    unread (fs ++ gs) s = unread fs s + unread gs s := by
  induction fs with
  | nil => exact (Nat.zero_add _).symm
  | cons f fs ih =>
    rw [List.cons_append, unread, unread, ih]
    omega

theorem unread_le {fs : List SourceFile} {s s' : State family}
    (h : ∀ f, s'.served? (.parseModule f) = none → s.served? (.parseModule f) = none) :
    unread fs s' ≤ unread fs s := by
  induction fs with
  | nil => exact Nat.le_refl 0
  | cons f fs ih =>
    have hf : unread [f] s' ≤ unread [f] s := by
      by_cases hf : s'.served? (.parseModule f) = none
      · simp [unread, hf, h f hf]
      · simp [unread, hf]
    rw [← List.singleton_append, unread_append, unread_append]
    omega

/-- A file that was read is not to be read again. -/
theorem unread_add_le {fs : List SourceFile} {f : SourceFile} (hf : f ∈ fs) {s s' : State family}
    (h : ∀ g, s'.served? (.parseModule g) = none → s.served? (.parseModule g) = none)
    (hs : s.served? (.parseModule f) = none) (hs' : (s'.served? (.parseModule f)).isSome) :
    (declarations f).length + unread fs s' ≤ unread fs s := by
  obtain ⟨l, l', rfl⟩ := List.append_of_mem hf
  have hl : unread l s' ≤ unread l s := unread_le h
  have hl' : unread l' s' ≤ unread l' s := unread_le h
  have hself : unread [f] s = (declarations f).length := by simp [unread, hs]
  have hself' : unread [f] s' = 0 := by
    obtain ⟨out, hout⟩ := Option.isSome_iff_exists.1 hs'
    simp [unread, hout]
  rw [List.append_cons, unread_append, unread_append, unread_append, unread_append]
  omega

/-- What reading the files and looking up in them was found to give is among these definitions, and
they are of the files. -/
structure Covers (fs : List SourceFile) (pool : List Definition) (s : State family) : Prop where
  read : ∀ f ∈ fs, ∀ ds, s.served? (.parseModule f) = some (some ds) → ∀ d ∈ ds, d ∈ pool
  found : ∀ f ∈ fs, ∀ name d, s.served? (.lookup f name) = some (some d) → d ∈ pool
  closed : ∀ d ∈ pool, d.file ∈ fs

/-- Looking up in the files leads to so many definitions at most, and only to definitions of the
files. -/
def Supply (limit : Nat) (fs : List SourceFile) (s : State family) : Prop :=
  ∃ pool, Covers fs pool s ∧ pool.length + unread fs s ≤ limit

namespace Supply

variable {limit : Nat} {fs : List SourceFile} {s s' : State family}

theorem congr (h : Supply limit fs s) (hs : ∀ q, s'.served? q = s.served? q) :
    Supply limit fs s' := by
  obtain ⟨pool, hpool, hlimit⟩ := h
  refine ⟨pool, ⟨?_, ?_, hpool.closed⟩, ?_⟩
  · exact fun f hf ds hds => hpool.read f hf ds ((hs _).symm.trans hds)
  · exact fun f hf name d hd => hpool.found f hf name d ((hs _).symm.trans hd)
  · have hle : unread fs s' ≤ unread fs s := unread_le fun f hf => (hs _).symm.trans hf
    omega

theorem file_of_read (h : Supply limit fs s) {f : SourceFile} (hf : f ∈ fs)
    {ds : List Definition} (hds : s.served? (.parseModule f) = some (some ds)) :
    ∀ d ∈ ds, d.file ∈ fs := by
  obtain ⟨pool, hpool, -⟩ := h
  exact fun d hd => hpool.closed d (hpool.read f hf ds hds d hd)

theorem file_of_found (h : Supply limit fs s) {f : SourceFile} (hf : f ∈ fs) {name : String}
    {d : Definition} (hd : s.served? (.lookup f name) = some (some d)) : d.file ∈ fs := by
  obtain ⟨pool, hpool, -⟩ := h
  exact hpool.closed d (hpool.found f hf name d hd)

/-- Different definitions that were looked up in the files are not more than the limit. -/
theorem length_le (h : Supply limit fs s) {vs : List Definition} (hvs : vs.Nodup)
    (hfound : ∀ d ∈ vs, ∃ f ∈ fs, ∃ name, s.served? (.lookup f name) = some (some d)) :
    vs.length ≤ limit := by
  obtain ⟨pool, hpool, hlimit⟩ := h
  have hsub : vs ⊆ pool := by
    intro d hd
    obtain ⟨f, hf, name, hserved⟩ := hfound d hd
    exact hpool.found f hf name d hserved
  have hle := (List.subperm_of_subset hvs hsub).length_le
  omega

end Supply

/-- What a body that reads or looks up gives: no more definitions than the file declares, or one of
those that were read. -/
def Sourced : (r : Request) → r.Output → State family → Prop
  | .parseModule f, ds?, _ => ∀ ds ∈ ds?, ds.length ≤ (declarations f).length ∧ ∀ d ∈ ds, d.file = f
  | .lookup f _, d?, s => ∀ d ∈ d?, ∃ ds, s.served? (.parseModule f) = some (some ds) ∧ d ∈ ds
  | _, _, _ => True

/-- Where a result is kept that was not there, what was to be read becomes what was read. -/
theorem Supply.leaves {limit : Nat} {fs : List SourceFile} {r : Request} {out : Request.Output r}
    {s s' : State family} (h : Supply limit fs s) (hr : r.file ∈ fs)
    (hnone : s.served? r = none) (hsourced : Sourced r out s) (hout : Leaves rules r out s s') :
    Supply limit fs s' := by
  obtain ⟨pool, hpool, hlimit⟩ := h
  have hother : ∀ q, q ≠ r → s'.served? q = s.served? q := fun q hq =>
    hout.served?_of_ne lawful hq
  have hstays : ∀ f, s'.served? (.parseModule f) = none → s.served? (.parseModule f) = none := by
    intro f hf
    by_cases hfr : Request.parseModule f = r
    · rw [hfr]
      exact hnone
    · rw [← hother _ hfr]
      exact hf
  have hread : ∀ f, Request.parseModule f ≠ r → f ∈ fs → ∀ ds,
      s'.served? (.parseModule f) = some (some ds) → ∀ d ∈ ds, d ∈ pool := by
    intro f hfr hf ds hds
    rw [hother _ hfr] at hds
    exact hpool.read f hf ds hds
  have hfound : ∀ f name, Request.lookup f name ≠ r → f ∈ fs → ∀ d,
      s'.served? (.lookup f name) = some (some d) → d ∈ pool := by
    intro f name hfr hf d hd
    rw [hother _ hfr] at hd
    exact hpool.found f hf name d hd
  have hle : unread fs s' ≤ unread fs s := unread_le hstays
  cases r with
  | parseModule f =>
    have hf : f ∈ fs := hr
    have hself : s'.served? (.parseModule f) = some out := by
      rw [State.served?, if_pos (show family.inEngine (.parseModule f) = true from rfl)]
      exact hout.result_self rfl
    have hunread := unread_add_le hf hstays hnone (by rw [hself]; rfl)
    cases out with
    | none =>
      refine ⟨pool, ⟨fun g hg ds hds => ?_, fun g hg name d => ?_, hpool.closed⟩, by omega⟩
      · refine hread g ?_ hg ds hds
        rintro ⟨⟩
        rw [hself] at hds
        cases hds
      · exact hfound g name (by rintro ⟨⟩) hg d
    | some new =>
      obtain ⟨hlength, hfile⟩ := hsourced new rfl
      refine ⟨new ++ pool, ⟨fun g hg ds hds d hd => ?_, fun g hg name d hd => ?_, fun d hd => ?_⟩, ?_⟩
      · by_cases hgf : g = f
        · subst hgf
          rw [hself] at hds
          cases hds
          exact List.mem_append_left _ hd
        · exact List.mem_append_right _ (hread g (by rintro ⟨⟩; exact hgf rfl) hg ds hds d hd)
      · exact List.mem_append_right _ (hfound g name (by rintro ⟨⟩) hg d hd)
      · rcases List.mem_append.1 hd with hd | hd
        · rw [hfile d hd]
          exact hr
        · exact hpool.closed d hd
      · rw [List.length_append]
        omega
  | lookup f n =>
    refine ⟨pool, ⟨fun g hg => hread g (by rintro ⟨⟩) hg, fun g hg name d hd => ?_, hpool.closed⟩,
      by omega⟩
    by_cases hgn : Request.lookup g name = .lookup f n
    · cases hgn
      have hself : some d = out := hout.served?_self lawful hd
      subst hself
      obtain ⟨ds, hds, hmem⟩ := hsourced d rfl
      exact hpool.read f hr ds hds d hmem
    · exact hfound g name hgn hg d hd
  | value | check | emit =>
    exact ⟨pool, ⟨fun g hg => hread g (by rintro ⟨⟩) hg,
      fun g hg name => hfound g name (by rintro ⟨⟩) hg, hpool.closed⟩, by omega⟩

/-! ## What holds at every call -/

/-- What holds of the state under these active requests. -/
structure Endures (limit : Nat) (fs : List SourceFile) (stack : List Request)
    (s : State family) : Prop where
  supply : Supply limit fs s
  owned : s.Owned
  known : ∀ k, s.registry.knows k
  /-- All active values but the first to be active were looked up. -/
  found : ∀ d ∈ (values stack).dropLast,
    ∃ f ∈ fs, ∃ name, s.served? (.lookup f name) = some (some d)

/-- The active requests are different, each of a rank below that of the next, and there is fuel
enough for a request about one of the files. -/
structure Reach (limit n : Nat) (fs : List SourceFile) (stack : List Request) (r : Request) :
    Prop where
  linked : Linked Below stack r
  nodup : stack.Nodup
  file : r.file ∈ fs
  fuel : r.need limit (values stack).length ≤ n

section

variable {limit n : Nat} {fs : List SourceFile} {stack : List Request} {r q : Request}
  {s s' : State family}

theorem Endures.push (h : Endures limit fs stack s) (hq : q.value? = none) :
    Endures limit fs (q :: stack) s := by
  refine { h with found := fun d hd => h.found d ?_ }
  rwa [values, List.filterMap_cons_none hq] at hd

theorem Endures.push_value (h : Endures limit fs stack s) {d : Definition}
    (hd : values stack = [] ∨ ∃ f ∈ fs, ∃ name, s.served? (.lookup f name) = some (some d)) :
    Endures limit fs (.value d :: stack) s := by
  refine { h with found := fun d' hd' => ?_ }
  change d' ∈ (d :: values stack).dropLast at hd'
  cases hv : values stack with
  | nil =>
    rw [hv] at hd'
    cases hd'
  | cons e rest =>
    rw [hv, List.dropLast_cons_cons] at hd'
    rcases List.mem_cons.1 hd' with rfl | hd'
    · exact hd.resolve_left (by rw [hv]; simp)
    · exact h.found d' (by rw [hv]; exact hd')

theorem Endures.pop (h : Endures limit fs (r :: stack) s) : Endures limit fs stack s := by
  refine { h with found := fun d hd => h.found d ?_ }
  cases hr : r.value? with
  | none => rwa [values, List.filterMap_cons_none hr]
  | some e =>
    rw [values, List.filterMap_cons_some hr]
    exact mem_dropLast_cons hd

/-- There are no more active values than definitions, but for the one that was active first. -/
theorem Endures.length_values_le (h : Endures limit fs stack s) (hnodup : stack.Nodup) :
    (values stack).length ≤ limit + 1 := by
  have hle := h.supply.length_le ((nodup_values hnodup).sublist (List.dropLast_sublist _)) h.found
  rw [List.length_dropLast] at hle
  omega

theorem Endures.persists (h : Endures limit fs stack s) (hp : Persists stack s s')
    (hsupply : Supply limit fs s') : Endures limit fs stack s' where
  supply := hsupply
  owned := hp.owned h.owned
  known k := by rw [hp.registry]; exact h.known k
  found d hd := by
    obtain ⟨f, hf, name, hserved⟩ := h.found d hd
    exact ⟨f, hf, name, hp.served _ _ hserved⟩

theorem Endures.still (h : Endures limit fs stack s) (hs : Still s s') :
    Endures limit fs stack s' :=
  h.persists hs.frame.toPersists (h.supply.congr hs.served?)

/-- There is always fuel left. -/
theorem Reach.pos (h : Reach limit n fs stack r) (hs : Endures limit fs (r :: stack) s) :
    0 < n := by
  have hfuel := h.fuel
  have hactive := hs.pop.length_values_le h.nodup
  cases r <;> simp only [Request.need] at hfuel <;> omega

theorem Reach.push (h : Reach limit (n + 1) fs stack r) (hs : Endures limit fs (r :: stack) s)
    (hr : r ∉ stack) (hq : Below r q) (hf : q.file ∈ fs) : Reach limit n fs (r :: stack) q := by
  have hnodup : (r :: stack).Nodup := List.nodup_cons.2 ⟨hr, h.nodup⟩
  refine ⟨h.linked.push hq, hnodup, hf, ?_⟩
  have hfuel := h.fuel
  have hactive := hs.length_values_le hnodup
  have hvalue : ∀ d, r = .value d → (values (r :: stack)).length = (values stack).length + 1 := by
    rintro d rfl
    rfl
  unfold Below at hq
  cases r with
  | value d =>
    rw [hvalue d rfl] at hactive ⊢
    cases q <;> simp only [Request.rank, Request.need] at hq hfuel ⊢ <;> omega
  | parseModule | lookup | check | emit =>
    cases q <;> simp only [Request.rank, Request.need] at hq hfuel ⊢ <;> omega

end

/-- A request is answered with a result, unless it is for a value. -/
abbrev Outlasted (limit : Nat) (fs : List SourceFile) (r : Request) (o : Outcome family r)
    (s : State family) : Prop :=
  Supply limit fs s ∧ ∀ c, o = .error c → ∃ d, r = .value d

/-- The task asks where it may, if the requests that it asks for are answered. -/
abbrev Lasts {α : Type} (limit n : Nat) (fs : List SourceFile) (stack : List Request)
    (t : Task family α) (s : State family) (Q : α → State family → Prop) : Prop :=
  t.Safe (fun q s => Reach limit n fs stack q ∧ Endures limit fs (q :: stack) s)
    (fun q s o s' => Answers stack q s o s' ∧ Outlasted limit fs q o s') stack s Q

section Lasts

variable {α : Type} {limit n : Nat} {fs : List SourceFile} {stack : List Request}
  {s : State family}

theorem lasts_report (hs : Endures limit fs stack s) (f : SourceFile) (p : Problem) :
    Lasts limit n fs stack (reportProblem f p) s fun _ s' => Endures limit fs stack s' :=
  (Task.safe_reportAll _).mono fun _ _ h => hs.still h.1

theorem lasts_say (hs : Endures limit fs stack s) (level : LogLevel) (text : String) :
    Lasts limit n fs stack (Task.say level text) s fun _ s' => Endures limit fs stack s' :=
  hs.still (Still.log s level text)

/-- A request for anything but a value is answered with a result. -/
theorem lasts_ask {q : Request} (hs : Endures limit fs stack s) (hq : q.value? = none)
    (hreach : Reach limit n fs stack q) {next : Outcome family q → Task family α}
    {Q : α → State family → Prop}
    (hnext : ∀ out s', Endures limit fs stack s' →
      (family.inEngine q → s'.served? q = some out) →
      Lasts limit n fs stack (next (.ok out)) s' Q) :
    Lasts limit n fs stack (.ask q next) s Q := by
  refine ⟨⟨hreach, hs.push hq⟩, ?_⟩
  rintro o s' ⟨hanswers, hsupply, herror⟩
  cases o with
  | ok out => exact hnext out s' (hs.persists hanswers.toPersists hsupply) (hanswers.kept out rfl)
  | error c =>
    obtain ⟨d, rfl⟩ := herror c rfl
    cases hq

/-- The value of a definition that was looked up, or of any if no value is active. -/
theorem lasts_value {d : Definition} (hs : Endures limit fs stack s)
    (hd : values stack = [] ∨ ∃ f ∈ fs, ∃ name, s.served? (.lookup f name) = some (some d))
    (hreach : Reach limit n fs stack (.value d)) :
    Lasts limit n fs stack (Task.evaluateD (F := family) (.value d) none) s fun _ s' =>
      Endures limit fs stack s' := by
  refine ⟨⟨hreach, hs.push_value hd⟩, ?_⟩
  rintro o s' ⟨hanswers, hsupply, -⟩
  exact hs.persists hanswers.toPersists hsupply

/-! ## Bodies -/

theorem lasts_parseModule (hs : Endures limit fs stack s) (f : SourceFile) :
    Lasts limit n fs stack (parseModule f) s fun ds? s' =>
      Endures limit fs stack s' ∧ Sourced (.parseModule f) ds? s' := by
  refine (lasts_say hs _ _).bind fun _ s₁ hs₁ => ?_
  cases hread : readDeclarations f.content with
  | error p =>
    refine (lasts_report hs₁ f p).bind fun _ s₂ hs₂ => ⟨hs₂, ?_⟩
    rintro ds ⟨⟩
  | ok ds =>
    refine ⟨hs₁.still (@Still.visit family s₁ (fun w => ⟨w.readings + 1⟩) fun _ _ => rfl), ?_⟩
    rintro _ ⟨⟩
    refine ⟨?_, by simp⟩
    rw [List.length_map, declarations_eq (declarations?_of_ok hread)]

theorem lasts_lookup (hs : Endures limit fs stack s) {f : SourceFile} (name : String)
    (hreach : Reach limit n fs stack (.parseModule f)) :
    Lasts limit n fs stack (lookup f name) s fun d? s' =>
      Endures limit fs stack s' ∧ Sourced (.lookup f name) d? s' := by
  refine lasts_ask hs rfl hreach fun ds? s₁ hs₁ hserved => ⟨hs₁, ?_⟩
  intro d hd
  obtain ⟨ds, rfl, hfind⟩ := Option.mem_bind_iff.1 hd
  exact ⟨ds, hserved rfl, List.mem_of_find?_eq_some hfind⟩

theorem lasts_settle (hs : Endures limit fs stack s) (f : SourceFile) (span : Span) (m : Int) :
    Lasts limit n fs stack (settle f span m) s fun _ s' => Endures limit fs stack s' := by
  unfold settle
  cases fitting m with
  | some w => exact hs
  | none => exact (lasts_report hs f _).bind fun _ _ hs₁ => hs₁

theorem lasts_fold {f : SourceFile} (hf : f ∈ fs)
    (hreach : ∀ q : Request, q.rank ≤ 2 → q.file ∈ fs → Reach limit n fs stack q) (e : Expr)
    (hs : Endures limit fs stack s) :
    Lasts limit n fs stack (fold f e) s fun _ s' => Endures limit fs stack s' := by
  induction e generalizing s with
  | integer v span => exact hs
  | name m span =>
    refine lasts_ask hs rfl (hreach (.lookup f m) (by simp [Request.rank]) hf) ?_
    intro d? s₁ hs₁ hserved
    cases d? with
    | none => exact (lasts_report hs₁ f _).bind fun _ _ hs₂ => hs₂
    | some d =>
      have hd : s₁.served? (.lookup f m) = some (some d) := hserved rfl
      exact lasts_value hs₁ (.inr ⟨f, hf, m, hd⟩)
        (hreach (.value d) (by simp [Request.rank]) (hs₁.supply.file_of_found hf hd))
  | negate e span ih =>
    refine (ih hs).bind fun v? s₁ hs₁ => ?_
    cases v? with
    | none => exact hs₁
    | some v => exact lasts_settle hs₁ f span (-v)
  | binary op l r span ihl ihr =>
    refine (ihl hs).bind fun a? s₁ hs₁ => (ihr hs₁).bind fun b? s₂ hs₂ => ?_
    cases a? with
    | none => exact hs₂
    | some a =>
      cases b? with
      | none => exact hs₂
      | some b => exact lasts_settle hs₂ f span (op.apply a b)

theorem lasts_checkAll (hnone : values stack = []) {f : SourceFile} {all : List Definition}
    (ds : List Definition) (hreach : ∀ d ∈ ds, Reach limit n fs stack (.value d))
    (hs : Endures limit fs stack s) :
    Lasts limit n fs stack (checkAll f all ds) s fun _ s' => Endures limit fs stack s' := by
  induction ds generalizing s with
  | nil => exact hs
  | cons d ds ih =>
    have hrest : ∀ s₁, Endures limit fs stack s₁ →
        Lasts limit n fs stack (checkAll f all ds) s₁ fun _ s' => Endures limit fs stack s' :=
      fun _ => ih fun d hd => hreach d (List.mem_cons_of_mem _ hd)
    rw [checkAll]
    cases (Definition.find? all d.name).filter fun first => first ≠ d with
    | some first =>
      exact (lasts_report hs f _).bind fun _ s₁ hs₁ => (hrest s₁ hs₁).bind fun _ _ hs₂ => hs₂
    | none =>
      exact (lasts_value hs (.inl hnone) (hreach d List.mem_cons_self)).bind fun _ s₁ hs₁ =>
        (hrest s₁ hs₁).bind fun _ _ hs₂ => hs₂

theorem lasts_check (hnone : values stack = []) {f : SourceFile} (hf : f ∈ fs)
    (hreach : ∀ q : Request, q.rank ≤ 2 → q.file ∈ fs → Reach limit n fs stack q)
    (hs : Endures limit fs stack s) :
    Lasts limit n fs stack (check f) s fun _ s' => Endures limit fs stack s' := by
  refine (lasts_say hs _ _).bind fun _ s₁ hs₁ => ?_
  refine lasts_ask hs₁ rfl (hreach (.parseModule f) (by simp [Request.rank]) hf) ?_
  intro ds? s₂ hs₂ hserved
  cases ds? with
  | none => exact hs₂
  | some ds =>
    have hfile := hs₂.supply.file_of_read hf (hserved rfl)
    exact lasts_checkAll hnone ds
      (fun d hd => hreach (.value d) (by simp [Request.rank]) (hfile d hd)) hs₂

theorem lasts_emitAll (hnone : values stack = []) (ds : List Definition)
    (hreach : ∀ d ∈ ds, Reach limit n fs stack (.value d)) (hs : Endures limit fs stack s) :
    Lasts limit n fs stack (emitAll ds) s fun _ s' => Endures limit fs stack s' := by
  induction ds generalizing s with
  | nil => exact hs
  | cons d ds ih =>
    refine (lasts_value hs (.inl hnone) (hreach d List.mem_cons_self)).bind fun v? s₁ hs₁ => ?_
    cases v? with
    | none => exact hs₁
    | some v =>
      exact (ih (fun d hd => hreach d (List.mem_cons_of_mem _ hd)) hs₁).bind fun _ _ hs₂ => hs₂

theorem lasts_emit (hnone : values stack = []) {f : SourceFile} (hf : f ∈ fs)
    (hreach : ∀ q : Request, q.rank ≤ 3 → q.file ∈ fs → Reach limit n fs stack q)
    (hs : Endures limit fs stack s) :
    Lasts limit n fs stack (emit f) s fun _ s' => Endures limit fs stack s' := by
  refine lasts_ask hs rfl (hreach (.check f) (by simp [Request.rank]) hf) ?_
  intro ok s₁ hs₁ _
  refine lasts_ask hs₁ rfl (hreach (.parseModule f) (by simp [Request.rank]) hf) ?_
  intro ds? s₂ hs₂ hserved
  cases ok with
  | false => exact hs₂
  | true =>
    cases ds? with
    | none => exact hs₂
    | some ds =>
      have hfile := hs₂.supply.file_of_read hf (hserved rfl)
      exact (lasts_emitAll hnone ds
        (fun d hd => hreach (.value d) (by simp [Request.rank]) (hfile d hd)) hs₂).bind
        fun _ _ hs₃ => hs₃

/-- Every body asks for requests of lower ranks about the files, and for values of definitions that
it looked up. -/
theorem lasts_body {r : Request} (hr : r.file ∈ fs) (hnone : 2 < r.rank → values stack = [])
    (hreach : ∀ q, Below r q → q.file ∈ fs → Reach limit n fs stack q)
    (hs : Endures limit fs stack s) :
    Lasts limit n fs stack (rules.body r) s fun out s' =>
      Endures limit fs stack s' ∧ Sourced r out s' := by
  cases r with
  | parseModule f => exact lasts_parseModule hs f
  | lookup f name => exact lasts_lookup hs name (hreach _ (by simp [Below, Request.rank]) hr)
  | value d =>
    refine (lasts_say hs _ _).bind fun _ s₁ hs₁ => ?_
    refine (lasts_fold (f := d.file) hr (fun q hq => hreach q ?_) _ hs₁).mono
      fun _ _ hs₂ => ⟨hs₂, trivial⟩
    have htwo : (Request.value d).rank = 2 := rfl
    unfold Below
    omega
  | check f =>
    exact (lasts_check (hnone (by simp [Request.rank])) hr
      (fun q hq => hreach q (.inl (Nat.lt_succ_of_le hq))) hs).mono fun _ _ hs₁ => ⟨hs₁, trivial⟩
  | emit f =>
    exact (lasts_emit (hnone (by simp [Request.rank])) hr
      (fun q hq => hreach q (.inl (Nat.lt_succ_of_le hq))) hs).mono fun _ _ hs₁ => ⟨hs₁, trivial⟩

end Lasts

/-! ## All requests -/

/-- No value is active where a check or code is asked for. -/
theorem values_eq_nil_of_below {stack : List Request} {r : Request} (h : Linked Below stack r)
    (hr : 2 < r.rank) : values (r :: stack) = [] := by
  rw [List.eq_nil_iff_forall_not_mem]
  intro d hd
  have htwo : (Request.value d).rank = 2 := rfl
  rcases List.mem_cons.1 (mem_values hd) with rfl | hd
  · omega
  · have hbelow := below_of_leads (h.leads hd)
    unfold Below at hbelow
    omega

/-- The body of a request that is not active asks where it may. -/
theorem enduring_body {limit n : Nat} {fs : List SourceFile} {stack : List Request} {r : Request}
    {s s₁ : State family} (hreach : Reach limit (n + 1) fs stack r)
    (hs : Endures limit fs (r :: stack) s) (hr : r ∉ stack) (hin : Enters stack r s s₁) :
    Lasts limit n fs (r :: stack) (rules.body r) s₁ fun out s₂ =>
      Endures limit fs (r :: stack) s₂ ∧ Sourced r out s₂ :=
  lasts_body hreach.file (values_eq_nil_of_below hreach.linked)
    (fun _ hq hf => hreach.push hs hr hq hf)
    (hs.persists hin.persists (hs.supply.congr hin.served?))

/-- Every request about the files is answered, whatever is in the cache. -/
def enduring (limit : Nat) (fs : List SourceFile) : Discipline rules fun _ => False where
  before n stack r s := Reach limit n fs stack r ∧ Endures limit fs (r :: stack) s
  after _ r _ o s' := Outlasted limit fs r o s'
  exhausted := fun ⟨hreach, hs⟩ => absurd (hreach.pos hs) (Nat.lt_irrefl 0)
  faults := fun ⟨_, hs⟩ => .inr ⟨hs.owned, hs.known _⟩
  cycle := fun {n stack r s s'} ⟨hreach, hs⟩ hr hc =>
    ⟨hs.supply.congr hc.served?, fun _ _ => value_of_leads (hreach.linked.leads hr)⟩
  hit := fun {n stack r s out s'} ⟨_, hs⟩ _ _ hserves => by
    refine ⟨hs.supply.congr (hserves.served? lawful), ?_⟩
    rintro c ⟨⟩
  body := fun {n stack r s s₁} ⟨hreach, hs⟩ hr hnone hin => by
    -- the request is active, so nothing is kept for it in the meantime
    refine ((enduring_body hreach hs hr hin).frame (keeps _) fun _ _ _ _ h => h.1.toFrame).mono ?_
    rintro out s₂ ⟨hframe, hs₂, hsourced⟩ s' hout
    have hnone₂ : s₂.served? r = none := by
      rw [hframe.served_active r List.mem_cons_self, hin.served?]
      exact hnone
    refine ⟨hs₂.supply.leaves hreach.file hnone₂ hsourced hout, ?_⟩
    rintro c ⟨⟩

end Demand.Compiler
