import Demand.Proofs.Compiler.Accounts
import Demand.Proofs.Compiler.References
import Demand.Proofs.Compiler.Session

/-!
# Every problem is reported once

One lemma for each function of the compiler says what it reports besides what is reported of the
requests that it asks for (`Tells`). So every evaluation keeps the account of what was reported, as
a layer over what the compiler answers (`reporting`). It does not matter where cycles are found: a
value on a cycle is computed to its end, and looks at all its operands.

A check of a file leaves its account complete: what was reported are the problems of the file, and
besides only that values depend on themselves (`Session.diagnostics_eq_problems`).
-/

namespace Demand.Compiler

open Demand.Language

/-! ## What bodies report -/

/-- What holds of a request that is asked for: it is about the file, and a value is that of a first
definition. Code is not asked for. -/
structure Asked (f : SourceFile) (r : Request) (s : State family) : Prop where
  file : r.file = f
  rank : r.rank < 4
  coherent : Coherent f s
  first : ∀ d, r = .value d → First f s d

/-- The task reports what it should, if what it asks for adds nothing of its own. -/
abbrev Tells {α : Type} (f : SourceFile) (stack : List Request) (t : Task family α)
    (s : State family) (Q : α → State family → Prop) : Prop :=
  t.Safe (Asked f) (fun q s o s' => Answers stack q s o s' ∧ Answered q o s' ∧ Adds f [] s s') stack
    s Q

section Tells

variable {f : SourceFile} {limit n : Nat} {stack : List Request} {ps : List Problem}
  {s₀ s : State family}

/-- What a task does for its result, it does while it reports. -/
theorem tells_runs {α : Type} {t : Task family α} {Q Q' : α → State family → Prop}
    (hruns : Runs limit n stack t s Q) (htells : Tells f stack t s Q') :
    Tells f stack t s fun a s' => Q a s' ∧ Q' a s' :=
  hruns.join htells fun _ _ _ _ h => ⟨h.1, h.2.1⟩

theorem tells_say (h : Adds f ps s₀ s) (level : LogLevel) (text : String) :
    Tells f stack (Task.say level text) s fun _ s' => Adds f ps s₀ s' :=
  h.still (Still.log s level text).served? rfl

theorem tells_report (hs : Coherent f s) (p : Problem) :
    Tells f stack (reportProblem f p) s fun _ s' => Adds f [p] s s' := by
  refine (Task.safe_reportAll (p.diagnostics f)).mono ?_
  rintro _ s' ⟨hstill, hdiagnostics⟩
  have hserved := hstill.served?
  refine ⟨hs.congr hserved, fun q v hq => (hserved q).trans hq, fun begun hbegun => ?_⟩
  refine hbegun.find (.problem p) ?_ hserved hdiagnostics
  rintro d via ⟨⟩

theorem inEngine_of_rank {r : Request} (h : r.rank < 4) : family.inEngine r = true := by
  cases r with
  | emit g => exact absurd h (Nat.lt_irrefl 4)
  | parseModule | lookup | value | check => rfl

/-- A request for anything but a value is answered with a result, which is served from then on. -/
theorem tells_ask {α : Type} {q : Request} (hv : q.value? = none) (hq : Asked f q s)
    {next : Outcome family q → Task family α} {Q : α → State family → Prop}
    (hnext : ∀ out s', Meets q out → s'.served? q = some out → Adds f [] s s' →
      Tells f stack (next (.ok out)) s' Q) : Tells f stack (.ask q next) s Q := by
  refine ⟨hq, fun o s' ⟨hanswers, hanswered, hadds⟩ => ?_⟩
  cases o with
  | ok out =>
    exact hnext out s' (hanswered.meets out rfl)
      (hanswers.kept out rfl (inEngine_of_rank hq.rank)) hadds
  | error c =>
    obtain ⟨d, rfl, -⟩ := hanswered.error c rfl
    cases hv

theorem tells_parse (hs : Coherent f s) :
    Tells f stack (Task.evaluateD (F := family) (.parseModule f) none) s fun ds? s' =>
      Meets (.parseModule f) ds? ∧ s'.served? (.parseModule f) = some ds? ∧ Adds f [] s s' := by
  have hasked : Asked f (.parseModule f) s := ⟨rfl, (by decide : 0 < 4), hs, by rintro d ⟨⟩⟩
  exact tells_ask rfl hasked fun ds? s' hds hserved hadds => ⟨hds, hserved, hadds⟩

/-- What a name denotes is the first of its name. -/
theorem tells_lookup (hs : Coherent f s) (m : String) :
    Tells f stack (Task.evaluateD (F := family) (.lookup f m) none) s fun d? s' =>
      Meets (.lookup f m) d? ∧ (∀ d ∈ d?, First f s' d) ∧ Adds f [] s s' := by
  have hasked : Asked f (.lookup f m) s := ⟨rfl, (by decide : 1 < 4), hs, by rintro d ⟨⟩⟩
  refine tells_ask rfl hasked fun d? s' hd hserved hadds => ⟨hd, ?_, hadds⟩
  exact (hadds.coherent _ _ hserved).2

/-- A value that is not active is served afterwards. -/
theorem tells_value {d : Definition} (hs : Coherent f s) (hfile : d.file = f)
    (hfirst : First f s d) :
    Tells f stack (Task.evaluateD (F := family) (.value d) none) s fun _ s' =>
      Adds f [] s s' ∧ (.value d ∉ stack → (s'.served? (.value d)).isSome) := by
  have hasked : Asked f (.value d) s := by
    refine ⟨hfile, (by decide : 2 < 4), hs, ?_⟩
    rintro _ ⟨⟩
    exact hfirst
  refine ⟨hasked, fun o s' ⟨hanswers, _, hadds⟩ => ⟨hadds, fun hinactive => ?_⟩⟩
  cases o with
  | ok out => exact Option.isSome_iff_exists.2 ⟨out, hanswers.kept out rfl rfl⟩
  | error c => exact absurd (hanswers.error_iff.1 ⟨c, rfl⟩) hinactive

/-! ### Values -/

theorem tells_settle (hs : Coherent f s) (span : Span) (m : Int) :
    Tells f stack (settle f span m) s fun _ s' =>
      Adds f ((Problem.overflow span).given (¬ Fits m)) s s' := by
  unfold settle
  cases hm : fitting m with
  | some w =>
    have hfits : Fits m := (fitting_eq_some_iff.1 hm).2
    rw [Problem.given_of_not (not_not_intro hfits)]
    exact .start hs
  | none =>
    have hnot : ¬ Fits m := by
      intro hfits
      rw [fitting_eq_some_iff.2 ⟨rfl, hfits⟩] at hm
      cases hm
    rw [Problem.given_of hnot]
    exact (tells_report hs _).bind fun _ _ h => h

theorem tells_name (hs : Coherent f s) (m : String) (span : Span) :
    Tells f stack (fold f (.name m span)) s fun _ s' =>
      Adds f (nodeProblems (declarations f) (.name m span)) s s' := by
  refine (tells_lookup hs m).bind ?_
  rintro d? s₁ ⟨⟨hfind, hfile⟩, hfirst, h₁⟩
  cases d? with
  | none =>
    have hunknown : findDeclaration (declarations f) m = none := hfind.symm
    rw [nodeProblems, Problem.given_of hunknown]
    exact (tells_report h₁.coherent _).bind fun _ _ h₂ => h₁.trans h₂
  | some d =>
    have hfound : findDeclaration (declarations f) m ≠ none := by
      rw [← hfind]
      exact Option.some_ne_none _
    rw [nodeProblems, Problem.given_of_not hfound]
    exact (tells_value h₁.coherent (hfile d rfl) (hfirst d rfl)).mono fun _ _ h₂ => h₁.trans h₂.1

/-- Both operands are looked at also if one has no value, and all nodes report their problems. -/
theorem tells_fold {d : Definition} (hroom : ∀ q, Asks (.value d) q → Room limit n stack q)
    (e : Expr) (he : ∀ m ∈ names e, m ∈ names d.declaration.value) (hsits : Sits stack s)
    (hs : Coherent d.file s) :
    Tells d.file stack (fold d.file e) s fun _ s' =>
      Adds d.file (exprProblems (declarations d.file) e) s s' := by
  induction e generalizing s with
  | integer v span =>
    rw [exprProblems_integer]
    exact .start hs
  | name m span =>
    rw [exprProblems_name]
    exact tells_name hs m span
  | negate e span ih =>
    refine (tells_runs (runs_fold hroom e he hsits) (ih he hsits hs)).bind ?_
    rintro v? s₁ ⟨⟨-, hv⟩, h₁⟩
    rw [exprProblems_negate, nodeProblems]
    simp only [← hv]
    cases v? with
    | none =>
      rw [Problem.given_of_not (by simp)]
      exact h₁
    | some v =>
      refine (tells_settle h₁.coherent span (-v)).mono fun _ s₂ h₂ => ?_
      have hreason : (∃ w, some v = some w ∧ ¬ Fits (-w)) ↔ ¬ Fits (-v) := by simp
      rw [hreason]
      exact (h₁.trans h₂).perm List.perm_append_comm
  | binary op l r span ihl ihr =>
    have hl : ∀ m ∈ names l, m ∈ names d.declaration.value := fun m hm =>
      he m (List.mem_append_left _ hm)
    have hr : ∀ m ∈ names r, m ∈ names d.declaration.value := fun m hm =>
      he m (List.mem_append_right _ hm)
    refine (tells_runs (runs_fold hroom l hl hsits) (ihl hl hsits hs)).bind ?_
    rintro a? s₁ ⟨⟨hsits₁, ha⟩, h₁⟩
    refine (tells_runs (runs_fold hroom r hr hsits₁) (ihr hr hsits₁ h₁.coherent)).bind ?_
    rintro b? s₂ ⟨⟨-, hb⟩, h₂⟩
    have h₁₂ := h₁.trans h₂
    rw [exprProblems_binary, nodeProblems]
    simp only [← ha, ← hb]
    cases a? with
    | none =>
      rw [Problem.given_of_not (by simp)]
      exact h₁₂
    | some a =>
      cases b? with
      | none =>
        rw [Problem.given_of_not (by simp)]
        exact h₁₂
      | some b =>
        refine (tells_settle h₂.coherent span (op.apply a b)).mono fun _ s₃ h₃ => ?_
        have hreason : (∃ x y, some a = some x ∧ some b = some y ∧ ¬ Fits (op.apply x y)) ↔
            ¬ Fits (op.apply a b) := by simp
        rw [hreason]
        exact (h₁₂.trans h₃).perm List.perm_append_comm

/-! ### Checks -/

/-- The duplicates among definitions, with the first of their names among `all`. -/
def repeated (all ds : List Definition) : List Problem :=
  ds.filterMap fun d =>
    ((Definition.find? all d.name).filter fun first => first ≠ d).map fun first =>
      .duplicate d.declaration first.declaration

theorem tells_checkAll (hnone : values stack = []) {all : List Definition}
    (hfile : ∀ d ∈ all, d.file = f) (ds : List Definition) (hds : ∀ d ∈ ds, d ∈ all)
    (hs : Coherent f s) (hread : s.served? (.parseModule f) = some (some all)) :
    Tells f stack (checkAll f all ds) s fun _ s' => Adds f (repeated all ds) s s' ∧
      ∀ d ∈ ds, Definition.find? all d.name = some d → (s'.served? (.value d)).isSome := by
  induction ds generalizing s with
  | nil =>
    refine ⟨.start hs, fun d hd => ?_⟩
    cases hd
  | cons d ds ih =>
    have hrest : ∀ d ∈ ds, d ∈ all := fun d hd => hds d (List.mem_cons_of_mem _ hd)
    have hd : d ∈ all := hds d List.mem_cons_self
    rw [checkAll]
    cases hdup : (Definition.find? all d.name).filter fun first => first ≠ d with
    | some first =>
      have hnot : Definition.find? all d.name ≠ some d := find?_ne_of_duplicate hd hdup
      have hcons : repeated all (d :: ds) =
          [.duplicate d.declaration first.declaration] ++ repeated all ds := by
        rw [repeated, List.filterMap_cons_some (by rw [hdup]; rfl)]
        rfl
      refine (tells_report hs _).bind fun _ s₁ h₁ => ?_
      refine (ih hrest h₁.coherent (h₁.grows _ _ hread)).bind ?_
      rintro rest s₂ ⟨h₂, hserved⟩
      rw [hcons]
      refine ⟨h₁.trans h₂, fun d' hd' hfirst => ?_⟩
      rcases List.mem_cons.1 hd' with rfl | hd'
      · exact absurd hfirst hnot
      · exact hserved d' hd' hfirst
    | none =>
      have hfirst : Definition.find? all d.name = some d := (duplicate_eq_none_iff hd).1 hdup
      have hcons : repeated all (d :: ds) = repeated all ds := by
        rw [repeated, List.filterMap_cons_none (by rw [hdup]; rfl)]
        rfl
      -- no value is active while a file is checked
      have hinactive : .value d ∉ stack := value_notMem hnone d
      refine (tells_value hs (hfile d hd) ⟨all, hread, hfirst⟩).bind ?_
      rintro v? s₁ ⟨h₁, hself⟩
      refine (ih hrest h₁.coherent (h₁.grows _ _ hread)).bind ?_
      rintro rest s₂ ⟨h₂, hserved⟩
      rw [hcons]
      refine ⟨h₁.trans h₂, fun d' hd' hfirst' => ?_⟩
      rcases List.mem_cons.1 hd' with rfl | hd'
      · obtain ⟨v, hv⟩ := Option.isSome_iff_exists.1 (hself hinactive)
        exact Option.isSome_iff_exists.2 ⟨v, h₂.grows _ _ hv⟩
      · exact hserved d' hd' hfirst'

/-- Of the definitions of one reading, different ones have different declarations. -/
theorem declaration_inj {all : List Definition}
    (hall : declarations? f = some (all.map Definition.declaration)) {d d' : Definition}
    (hd : d ∈ all) (hd' : d' ∈ all) : d.declaration = d'.declaration ↔ d = d' :=
  ⟨fun h => List.inj_on_of_nodup_map (nodup_of_declarations? hall) hd hd' h, fun h => h ▸ rfl⟩

theorem repeated_eq_duplicates {all : List Definition}
    (hall : declarations? f = some (all.map Definition.declaration)) :
    repeated all all = duplicates (declarations f) := by
  rw [declarations_eq hall, repeated, duplicates, List.filterMap_map]
  refine List.filterMap_congr fun d hd => ?_
  rw [Function.comp_apply, ← map_find?, show d.declaration.name = d.name from rfl]
  cases hfind : Definition.find? all d.name with
  | none => rfl
  | some first =>
    have hsame := declaration_inj hall (List.mem_of_find?_eq_some hfind) hd
    by_cases hne : first = d
    · simp [Option.filter, hne]
    · simp [Option.filter, hne, hsame]

theorem tells_check (hnone : values stack = []) (hs : Coherent f s) :
    Tells f stack (check f) s fun ok s' =>
      Adds f (duplicates (declarations f)) s s' ∧ Backed f s' (.check f) ok := by
  refine (tells_say (.start hs) _ _).bind fun _ s₁ h₁ => ?_
  refine (tells_parse h₁.coherent).bind ?_
  rintro ds? s₂ ⟨⟨hds, hfile⟩, hread, h₂⟩
  have h₁₂ := h₁.trans h₂
  cases ds? with
  | none =>
    rw [declarations_eq_nil hds.symm]
    refine ⟨h₁₂, by rw [hread]; rfl, ?_⟩
    rintro d ⟨ds, hds, -⟩
    rw [hread] at hds
    cases hds
  | some ds =>
    rw [← repeated_eq_duplicates hds.symm]
    refine (tells_checkAll hnone (hfile ds rfl) ds (fun _ hd => hd) h₂.coherent hread).mono ?_
    rintro ok s₃ ⟨h₃, hserved⟩
    have hread₃ := h₃.grows _ _ hread
    refine ⟨h₁₂.trans h₃, by rw [hread₃]; rfl, ?_⟩
    rintro d ⟨ds', hds', hfirst⟩
    rw [hread₃] at hds'
    obtain rfl : ds = ds' := Option.some.inj (Option.some.inj hds')
    exact hserved d (List.mem_of_find?_eq_some hfirst) hfirst

/-! ### All requests -/

/-- Every body reports the problems of its request, and gives a result that can be served. -/
theorem tells_body {r : Request} (hnone : 2 < r.rank → values stack = [])
    (hroom : ∀ q, Asks r q → Room limit n stack q) (hsits : Sits stack s) (h : Asked f r s) :
    Tells f stack (rules.body r) s fun out s' =>
      Adds f r.problems s s' ∧ Backed f s' r out := by
  obtain ⟨rfl, hrank, hs, hfirst⟩ := h
  cases r with
  | parseModule f =>
    refine (tells_say (.start hs) _ _).bind fun _ s₁ h₁ => ?_
    rw [Request.problems]
    cases readDeclarations f.content with
    | error p =>
      exact (tells_report h₁.coherent p).bind fun _ _ h₂ => ⟨h₁.trans h₂, trivial⟩
    | ok ds =>
      have hvisit := @Still.visit family s₁ (fun w => ⟨w.readings + 1⟩) fun _ _ => rfl
      exact ⟨h₁.still hvisit.served? rfl, trivial⟩
  | lookup f m =>
    refine (tells_parse hs).bind ?_
    rintro ds? s₁ ⟨-, hread, h₁⟩
    refine ⟨h₁, fun d hd => ?_⟩
    obtain ⟨ds, rfl, hfind⟩ := Option.bind_eq_some_iff.1 hd
    have hname : d.name = m := by simpa using List.find?_some hfind
    exact ⟨ds, hread, by rw [hname]; exact hfind⟩
  | value d =>
    have hsays : Runs limit n stack (Task.say .trace s!"folding `{d.name}`") s
        fun _ s' => Sits stack s' := runs_say hsits _ _
    refine (tells_runs hsays (tells_say (.start hs) _ _)).bind ?_
    rintro _ s₁ ⟨hsits₁, h₁⟩
    refine (tells_fold hroom d.declaration.value (fun _ hm => hm) hsits₁ h₁.coherent).mono ?_
    intro v? s₂ h₂
    have h₁₂ := h₁.trans h₂
    exact ⟨h₁₂, (hfirst d rfl).mono h₁₂.grows⟩
  | check f => exact tells_check (hnone (by simp [Request.rank])) hs
  | emit f => exact absurd hrank (Nat.lt_irrefl 4)

end Tells

/-! ## Cycles -/

/-- Requests that are all for values are told by the definitions. -/
theorem eq_map_value {l : List Request} (h : ∀ q ∈ l, q.rank = 2) :
    l = (values l).map .value := by
  induction l with
  | nil => rfl
  | cons q l ih =>
    have hrest := ih fun q hq => h q (List.mem_cons_of_mem _ hq)
    have hq : q.rank = 2 := h q List.mem_cons_self
    cases q with
    | value d => exact congrArg (Request.value d :: ·) hrest
    | parseModule | lookup | check | emit => cases hq

theorem takeWhile_above {l rest : List Request} {r : Request} (h : r ∉ l) :
    (l ++ r :: rest).takeWhile (fun q => q ≠ r) = l := by
  have hl : ∀ q ∈ l, decide (q ≠ r) = true := by
    intro q hq
    exact decide_eq_true fun heq => h (heq ▸ hq)
  rw [List.takeWhile_append_of_pos hl, List.takeWhile_cons_of_neg (by simp), List.append_nil]

/-- A request that is asked for while it is active is for a value, and so are those above it. -/
theorem exists_cycle {stack : List Request} {r : Request} (hlinked : Linked Asks stack r) (hr : r ∈ stack) :
    ∃ (d : Definition) (via : List Definition) (rest : List Request), r = .value d ∧ d ∉ via ∧
      stack = via.map Request.value ++ .value d :: rest := by
  obtain ⟨d, rfl, -⟩ := cyclic_value (hlinked.leads hr)
  obtain ⟨above, rest, rfl, hnot⟩ := List.eq_append_cons_of_mem hr
  have hranks : ∀ q ∈ above, q.rank = 2 := by
    intro q hq
    have hto := rank_lt_of_leads (hlinked.leads (List.mem_append_left _ hq))
    have hfrom := rank_lt_of_leads (hlinked.leads_above hr (by rwa [takeWhile_above hnot]))
    have htwo : (Request.value d).rank = 2 := rfl
    omega
  refine ⟨d, values above, rest, rfl, fun hd => hnot (mem_values hd), ?_⟩
  rw [← eq_map_value hranks]

/-- What is reported of a value that is active, below the ones it is asked for by way of. -/
theorem cycleReport_above {d : Definition} {via : List Definition} {rest : List Request}
    (hd : d ∉ via) (f : SourceFile) :
    Eval.cycleReport (F := family) (via.map Request.value ++ .value d :: rest) (.value d) =
      (Finding.cycle d via).diagnostics f := by
  have hnot : Request.value d ∉ via.map Request.value := by simpa using hd
  rw [Eval.cycleReport, takeWhile_above hnot, List.map_map]
  rfl

/-- What is reported of a request that depends on itself is about values without meaning. -/
theorem cycleReport_eq {stack : List Request} {r : Request} (hlinked : Linked Asks stack r)
    (hr : r ∈ stack) (f : SourceFile) :
    ∃ d via, r = .value d ∧ (∀ v, ¬ d.Means v) ∧
      Eval.cycleReport (F := family) stack r = (Finding.cycle d via).diagnostics f := by
  obtain ⟨d, rfl, hno⟩ := cyclic_value (hlinked.leads hr)
  obtain ⟨_, via, rest, ⟨⟩, hd, rfl⟩ := exists_cycle hlinked hr
  exact ⟨d, via, rfl, hno, cycleReport_above hd f⟩

/-! ## Every evaluation -/

/-- Every evaluation of the compiler keeps the account. -/
def reporting (limit : Nat) (f : SourceFile) : Layer (compiling limit) where
  before _ r s := Asked f r s
  after _ _ s _ s' := Adds f [] s s'
  cycle := fun {n stack r s s'} hb h hr hc => by
    obtain ⟨d, via, rfl, hno, hreport⟩ := cycleReport_eq hb.1.linked hr f
    refine ⟨h.coherent.congr hc.served?, fun q v hq => (hc.served? q).trans hq, ?_⟩
    intro begun hbegun
    refine hbegun.find (.cycle d via) ?_ hc.served? (by rw [hc.diagnostics, hreport])
    rintro _ _ ⟨⟩
    exact ⟨h.first d rfl, hno⟩
  hit := fun {n stack r s out s'} _ h _ _ hserves =>
    (Adds.start h.coherent).still (hserves.served? lawful) hserves.diagnostics
  body := fun {n stack r s s₁} hb h hr hnone hin => by
    have hsits : Sits (r :: stack) s₁ := hb.2.enters hin
    have hasked : Asked f r s₁ :=
      ⟨h.file, h.rank, h.coherent.congr hin.served?, fun d hd =>
        (h.first d hd).mono fun q v hq => (hin.served? q).trans hq⟩
    have hbody := tells_body (values_eq_nil hb.1.linked)
      (fun q hq => hb.1.push hb.2 hr hq) hsits hasked
    refine (hbody.frame (keeps _) fun _ _ _ _ hafter => hafter.1.toFrame).mono ?_
    rintro out s₂ ⟨hframe, hadds, hbacked⟩ s' hout
    -- the request is active while its body runs, so nothing else gives it a result
    have hnone₂ : s₂.served? r = none := by
      rw [hframe.served_active r List.mem_cons_self, hin.served?, hnone]
    refine ⟨hadds.coherent.leaves hout hnone₂ h.file hbacked, ?_, ?_⟩
    · exact fun q v hq =>
        grows_of_leaves hout hnone₂ q v (hadds.grows q v ((hin.served? q).trans hq))
    · intro begun hbegun
      rw [List.append_nil]
      have hbody := hadds.accounted begun (hbegun.congr hin.served? hin.diagnostics)
      exact hbody.leaves hout (inEngine_of_rank h.rank) hnone₂

/-! ## Complete accounts -/

section Complete

variable {f : SourceFile} {fs : List Finding} {done : List Request} {s : State family}
  {ds? : Option (List Definition)} {ok : Bool}

/-- The definitions that are the first of their names. -/
def firstDefinitions (ds : List Definition) : List Definition :=
  ds.filter fun d => Definition.find? ds d.name = some d

theorem mem_firstDefinitions {ds : List Definition} {d : Definition} :
    d ∈ firstDefinitions ds ↔ Definition.find? ds d.name = some d := by
  rw [firstDefinitions, List.mem_filter, decide_eq_true_eq]
  exact ⟨And.right, fun h => ⟨List.mem_of_find?_eq_some h, h⟩⟩

theorem first_iff (hread : s.served? (.parseModule f) = some ds?) (d : Definition) :
    First f s d ↔ d ∈ firstDefinitions (ds?.getD []) := by
  rw [mem_firstDefinitions]
  constructor
  · rintro ⟨ds, hds, hfind⟩
    obtain rfl : ds? = some ds := Option.some.inj (hread.symm.trans hds)
    exact hfind
  · intro hfind
    cases ds? with
    | none => cases hfind
    | some ds => exact ⟨ds, hread, hfind⟩

theorem firsts_eq_map {all : List Definition}
    (hall : declarations? f = some (all.map Definition.declaration)) :
    firsts (declarations f) = (firstDefinitions all).map Definition.declaration := by
  rw [declarations_eq hall, firsts, List.filter_map, firstDefinitions]
  refine congrArg _ (List.filter_congr fun d hd => decide_eq_decide.2 ?_)
  rw [← map_find?, Option.map_eq_some_iff]
  constructor
  · rintro ⟨first, hfind, hsame⟩
    rwa [(declaration_inj hall (List.mem_of_find?_eq_some hfind) hd).1 hsame] at hfind
  · exact fun hfind => ⟨d, hfind, rfl⟩

/-- Whether the request can report a problem of its own. -/
def Request.isReporter : Request → Bool
  | parseModule _ | value _ | check _ => true
  | lookup .. | emit _ => false

theorem flatMap_filter_isReporter (done : List Request) :
    (done.filter Request.isReporter).flatMap Request.problems = done.flatMap Request.problems := by
  induction done with
  | nil => rfl
  | cons r done ih =>
    cases r with
    | parseModule | value | check =>
      rw [List.filter_cons_of_pos rfl, List.flatMap_cons, List.flatMap_cons, ih]
    | lookup | emit =>
      rw [List.filter_cons_of_neg Bool.false_ne_true, ih]
      rfl

/-- After a check the file was read and checked, and the first definitions were looked at: these are
the requests that report, and each was computed once. -/
theorem perm_reporters (h : Account f fs done [] s) (hs : Coherent f s)
    (hcheck : s.served? (.check f) = some ok)
    (hread : s.served? (.parseModule f) = some ds?) (hnodup : (ds?.getD []).Nodup) :
    (done.filter Request.isReporter).Perm
      (.parseModule f :: .check f :: (firstDefinitions (ds?.getD [])).map .value) := by
  have hvalues := (hs (.check f) ok hcheck).2.2
  have hnodup' : ((firstDefinitions (ds?.getD [])).map Request.value).Nodup :=
    (hnodup.filter _).map fun _ _ => Request.value.inj
  refine (List.perm_ext_iff_of_nodup (h.nodup.filter _) ?_).2 fun q => ?_
  · simpa using hnodup'
  · rw [List.mem_filter, h.mem_done, Option.isSome_iff_exists, List.mem_cons, List.mem_cons,
      List.mem_map]
    constructor
    · rintro ⟨⟨out, hout⟩, hreporter⟩
      obtain ⟨hfile, hbacked⟩ := hs q out hout
      cases q with
      | parseModule g => exact .inl (congrArg _ hfile)
      | check g => exact .inr (.inl (congrArg _ hfile))
      | value d => exact .inr (.inr ⟨d, (first_iff hread d).1 hbacked, rfl⟩)
      | lookup | emit => cases hreporter
    · rintro (rfl | rfl | ⟨d, hd, rfl⟩)
      · exact ⟨⟨_, hread⟩, rfl⟩
      · exact ⟨⟨_, hcheck⟩, rfl⟩
      · exact ⟨Option.isSome_iff_exists.1 (hvalues d ((first_iff hread d).2 hd)), rfl⟩

/-- What these requests report is what is wrong with the file. -/
theorem flatMap_problems_eq (hds : Meets (.parseModule f) ds?) :
    (Request.parseModule f :: .check f :: (firstDefinitions (ds?.getD [])).map .value).flatMap
      Request.problems = fileProblems f := by
  obtain ⟨hds, hfile⟩ := hds
  rw [List.flatMap_cons, List.flatMap_cons, List.flatMap_map, Request.problems, Request.problems]
  cases hread : readDeclarations f.content with
  | error p =>
    have hunread := declarations?_of_error hread
    rw [hunread, Option.map_eq_none_iff] at hds
    rw [hds, declarations_eq_nil hunread, fileProblems_of_error hread]
    rfl
  | ok ds =>
    have hsome := declarations?_of_ok hread
    rw [hsome] at hds
    obtain ⟨all, rfl, rfl⟩ := Option.map_eq_some_iff.1 hds
    have hvalues : (firstDefinitions all).flatMap (fun d => (Request.value d).problems) =
        (firstDefinitions all).flatMap fun d =>
          exprProblems (declarations f) d.declaration.value := by
      refine List.flatMap_congr fun d hd => ?_
      rw [Request.problems, hfile all rfl d (List.mem_of_mem_filter hd)]
    rw [fileProblems_of_declarations? hsome, ← declarations_eq hsome, firsts_eq_map hsome,
      List.flatMap_map, ← hvalues]
    rfl

/-- No definition is read twice at a time. -/
theorem nodup_reading (hds : Meets (.parseModule f) ds?) : (ds?.getD []).Nodup := by
  cases ds? with
  | none => exact List.nodup_nil
  | some ds => exact .of_map _ (nodup_of_declarations? hds.1.symm)

/-- After a check the problems of the file were reported, each once. -/
theorem problems_perm_fileProblems (h : Account f fs done [] s) (hs : Coherent f s)
    (hcorrect : Correct s) (hcheck : s.served? (.check f) = some ok) :
    (problems fs).Perm (fileProblems f) := by
  obtain ⟨ds?, hread⟩ := Option.isSome_iff_exists.1 (hs (.check f) ok hcheck).2.1
  have hds := hcorrect _ _ hread
  have hproblems := h.problems
  rw [List.append_nil, ← flatMap_filter_isReporter] at hproblems
  have hperm := (perm_reporters h hs hcheck hread (nodup_reading hds)).flatMap_right Request.problems
  rw [flatMap_problems_eq hds] at hperm
  exact hproblems.trans hperm

/-- A value that depends on itself is that of a first declaration. -/
theorem Account.cycles_declared (h : Account f fs done [] s) (hcorrect : Correct s)
    {d : Definition} {via : List Definition} (hd : .cycle d via ∈ fs) :
    d.file = f ∧ findDeclaration (declarations f) d.name = some d.declaration ∧
      ∀ v, ¬ d.Means v := by
  obtain ⟨⟨ds, hread, hfind⟩, hno⟩ := h.cycles d via hd
  obtain ⟨hds, hfile⟩ := hcorrect _ _ hread
  refine ⟨hfile ds rfl d (List.mem_of_find?_eq_some hfind), ?_, hno⟩
  rw [declarations_eq hds.symm, ← map_find?, hfind]
  rfl

/-- Where nothing depends on itself, findings are problems. -/
theorem eq_map_problem (h : ∀ d via, .cycle d via ∉ fs) : fs = (problems fs).map .problem := by
  induction fs with
  | nil => rfl
  | cons x fs ih =>
    have hrest := ih fun d via hd => h d via (List.mem_cons_of_mem _ hd)
    cases x with
    | problem p => exact congrArg (Finding.problem p :: ·) hrest
    | cycle d via => exact absurd List.mem_cons_self (h d via)

/-- Of a file that cannot be read, that is all that is reported. -/
theorem diagnostics_of_error (h : Account f fs done [] s) (hcorrect : Correct s)
    (hperm : (problems fs).Perm (fileProblems f)) {p : Problem}
    (hp : readDeclarations f.content = .error p) : s.diagnostics = p.diagnostics f := by
  have hnocycle : ∀ d via, .cycle d via ∉ fs := by
    intro d via hd
    obtain ⟨⟨ds, hread, -⟩, -⟩ := h.cycles d via hd
    have hds := (hcorrect _ _ hread).1
    rw [declarations?_of_error hp] at hds
    cases hds
  rw [fileProblems_of_error hp, List.perm_singleton] at hperm
  rw [h.diagnostics, eq_map_problem hnocycle, hperm]
  exact List.append_nil _

end Complete

/-! ## Checks from outside -/

namespace Session

variable {files : List SourceFile} {s : Session} {f : SourceFile}

/-- The check of a file as a step is answered, and adds to the account what it should. -/
theorem Sound.ends_checkStep (h : Sound files s) {i : Nat} (hf : s.file? i = some f)
    (hs : Coherent f s.state) :
    Eval.Ends (fun _ => False) (s.act (.evaluate (.check i))) s.state fun x s' =>
      ∃ ok, x = (.reply (.answers [⟨.check f, .ok ok⟩]), s.held) ∧ Correct s' ∧
        s'.served? (.check f) = some ok ∧ Adds f [] s.state s' := by
  have hr : s.request? (.check i) = some (.check f) := by
    rw [request?, hf]
    rfl
  have hasked : Asked f (.check f) s.state :=
    ⟨rfl, (by decide : 3 < 4), hs, by rintro d ⟨⟩⟩
  rw [act, commandOn, hr]
  refine Eval.ends_bind.2 (Eval.ends_bind.2 (Eval.ends_bind.2 (Eval.ends_bind.2 ?_)))
  rw [h.files_eq]
  refine ((reporting _ f).discipline.ends lawful _ [] (.check f) s.state
    ⟨⟨room_start (h.mem_of_file? hf) s.state, h.sits.single (.check f)⟩, hasked⟩).mono ?_
  rintro o s' ⟨hanswers, hanswered, hadds⟩
  cases o with
  | ok ok => exact ⟨ok, rfl, hanswered.correct, hanswers.kept ok rfl rfl, hadds⟩
  | error c => exact absurd (hanswers.error_iff.1 ⟨c, rfl⟩) List.not_mem_nil

theorem start_coherent (files : List SourceFile) (options : Options) (f : SourceFile) :
    Coherent f (start files options true).state := by
  intro r out hr
  rw [start_served?] at hr
  cases hr

/-- Before any step nothing was reported and nothing is done. -/
theorem start_accounted (files : List SourceFile) (options : Options) (f : SourceFile) :
    Accounted f [] (start files options true).state := by
  refine ⟨[], [], rfl, .refl [], List.nodup_nil, fun q => ?_, fun d via hd => ?_⟩
  · rw [start_served?]
    simp
  · cases hd

/-- A check of a file on a new engine is answered, and what is reported is one finding after the
other, each with its notes. The findings that are not cycles are the problems of the file, each as
often as the file has it: the error that the file cannot be read, or the declarations that are not
the first of their names, the names in first declarations that are declared nowhere, and the
operations in first declarations on integers whose result does not fit. The rest are values of first
declarations that depend on themselves, so that they have no meaning. -/
theorem diagnostics_eq_problems (files : List SourceFile) (options : Options) (i : Nat)
    (f : SourceFile) (hf : files[i]? = some f) :
    ∃ ok s', (start files options true).step (.evaluate (.check i)) =
        (⟨.ok (.reply (.answers [⟨.check f, .ok ok⟩])), s'.state.diagnostics.length⟩, s') ∧
      ∃ fs : List Finding, s'.state.diagnostics = fs.flatMap (Finding.diagnostics f) ∧
        (problems fs).Perm (fileProblems f) ∧
        (s'.state.diagnostics.filter fun d => !d.isAboutCycle) =
          (problems fs).flatMap (Problem.diagnostics f) ∧
        (∀ d via, .cycle d via ∈ fs → d.file = f ∧
          findDeclaration (declarations f) d.name = some d.declaration ∧ ∀ v, ¬ d.Means v) ∧
        (∀ p, readDeclarations f.content = .error p → s'.state.diagnostics = p.diagnostics f ∧
          ∃ span message notes, p.diagnostics f = .error (some (f.locate span)) message :: notes ∧
            notes.length ≤ 1 ∧ ∀ n ∈ notes, n.severity = .note ∧ n.location = none) ∧
        (∀ d first, (Problem.duplicate d first).diagnostics f =
          [.error (some (f.locate d.nameSpan)) s!"`{d.name}` is declared more than once",
            .note (some (f.locate first.span)) "first declared here"]) ∧
        (∀ name span, (Problem.unknownName name span).diagnostics f =
          [.error (some (f.locate span)) s!"cannot find `{name}` in this file"]) ∧
        ∀ span, (Problem.overflow span).diagnostics f =
          [.error (some (f.locate span)) "this arithmetic operation overflows"] := by
  have hsound := start_sound files options
  obtain ⟨_, s', hact, ok, rfl, hcorrect, hcheck, hadds⟩ :=
    (hsound.ends_checkStep hf (start_coherent files options f)).exists_ok
  obtain ⟨fs, done, haccount⟩ := hadds.accounted [] (start_accounted files options f)
  have hperm := problems_perm_fileProblems haccount hadds.coherent hcorrect hcheck
  refine ⟨ok, { start files options true with state := s' }, step_of_ok hact, fs,
    haccount.diagnostics, hperm, ?_, ?_, ?_, fun _ _ => rfl, fun _ _ => rfl, fun _ => rfl⟩
  · show (s'.diagnostics.filter fun d => !d.isAboutCycle) = _
    rw [haccount.diagnostics, filter_diagnostics]
  · exact fun d via hd => haccount.cycles_declared hcorrect hd
  · exact fun p hp => ⟨diagnostics_of_error haccount hcorrect hperm hp,
      diagnostics_of_readDeclarations hp⟩

/-- A file in which the values of `a` and `b` need each other, `a` is declared twice and `q` not at
all, and the sum in `c` does not fit. -/
def faulty : SourceFile where
  id := ⟨0⟩
  name := "faulty"
  content := "let a = b; let b = a + q; let a = 1; let c = 9223372036854775807 + 1;"

/-- The declarations of the file. -/
def faultyDeclarations : List Declaration :=
  [⟨"a", ⟨4, 1⟩, .name "b" ⟨8, 1⟩, ⟨0, 10⟩⟩,
    ⟨"b", ⟨15, 1⟩, .binary .add (.name "a" ⟨19, 1⟩) (.name "q" ⟨23, 1⟩) ⟨19, 5⟩, ⟨11, 14⟩⟩,
    ⟨"a", ⟨30, 1⟩, .integer 1 ⟨34, 1⟩, ⟨26, 10⟩⟩,
    ⟨"c", ⟨41, 1⟩, .binary .add (.integer 9223372036854775807 ⟨45, 19⟩) (.integer 1 ⟨67, 1⟩)
      ⟨45, 23⟩, ⟨37, 32⟩⟩]

example : (((start [faulty] {} true).step (.evaluate (.check 0))).2.state.diagnostics.map
    Diagnostic.message) =
      ["the value of `a` depends on itself", "which needs the value of `b`",
        "cannot find `q` in this file", "`a` is declared more than once", "first declared here",
        "this arithmetic operation overflows"] := by
  decide +kernel

/-- What is wrong with the file: the cycle hides neither the name nor the sum. -/
theorem fileProblems_faulty :
    fileProblems faulty =
      [.duplicate ⟨"a", ⟨30, 1⟩, .integer 1 ⟨34, 1⟩, ⟨26, 10⟩⟩
          ⟨"a", ⟨4, 1⟩, .name "b" ⟨8, 1⟩, ⟨0, 10⟩⟩,
        .unknownName "q" ⟨23, 1⟩, .overflow ⟨45, 23⟩] := by
  have hread : declarations? faulty = some faultyDeclarations := by decide +kernel
  have hfirsts : firsts faultyDeclarations =
      [⟨"a", ⟨4, 1⟩, .name "b" ⟨8, 1⟩, ⟨0, 10⟩⟩,
        ⟨"b", ⟨15, 1⟩, .binary .add (.name "a" ⟨19, 1⟩) (.name "q" ⟨23, 1⟩) ⟨19, 5⟩, ⟨11, 14⟩⟩,
        ⟨"c", ⟨41, 1⟩, .binary .add (.integer 9223372036854775807 ⟨45, 19⟩) (.integer 1 ⟨67, 1⟩)
          ⟨45, 23⟩, ⟨37, 32⟩⟩] := by
    decide +kernel
  have ha : findDeclaration faultyDeclarations "a" ≠ none := by decide +kernel
  have hb : findDeclaration faultyDeclarations "b" ≠ none := by decide +kernel
  have hq : findDeclaration faultyDeclarations "q" = none := by decide +kernel
  have hname : ¬ ∃ x y, Means faultyDeclarations (.name "a" ⟨19, 1⟩) x ∧
      Means faultyDeclarations (.name "q" ⟨23, 1⟩) y ∧ ¬ Fits (Operator.add.apply x y) := by
    rintro ⟨x, y, -, hy, -⟩
    obtain ⟨d, hd, -⟩ := means_name_iff.1 hy
    rw [hq] at hd
    cases hd
  have hsum : ∃ x y, Means faultyDeclarations (.integer 9223372036854775807 ⟨45, 19⟩) x ∧
      Means faultyDeclarations (.integer 1 ⟨67, 1⟩) y ∧ ¬ Fits (Operator.add.apply x y) :=
    ⟨_, _, .integer _ _, .integer _ _, by unfold Fits; decide⟩
  rw [fileProblems_of_declarations? hread, hfirsts]
  simp only [List.flatMap_cons, List.flatMap_nil, exprProblems_name, exprProblems_binary,
    exprProblems_integer, nodeProblems, Problem.given_of_not ha, Problem.given_of_not hb,
    Problem.given_of hq, Problem.given_of_not hname, Problem.given_of hsum]
  rfl

/-- What is found in the faulty file, whatever is found in between. -/
theorem diagnostics_eq_problems_faulty :
    ∃ ok s' fs, (start [faulty] {} true).step (.evaluate (.check 0)) =
        (⟨.ok (.reply (.answers [⟨.check faulty, .ok ok⟩])), s'.state.diagnostics.length⟩, s') ∧
      s'.state.diagnostics = fs.flatMap (Finding.diagnostics faulty) ∧
      (problems fs).Perm
        [.duplicate ⟨"a", ⟨30, 1⟩, .integer 1 ⟨34, 1⟩, ⟨26, 10⟩⟩
            ⟨"a", ⟨4, 1⟩, .name "b" ⟨8, 1⟩, ⟨0, 10⟩⟩,
          .unknownName "q" ⟨23, 1⟩, .overflow ⟨45, 23⟩] := by
  obtain ⟨ok, s', hstep, fs, hdiagnostics, hperm, -⟩ :=
    diagnostics_eq_problems [faulty] {} 0 faulty rfl
  rw [fileProblems_faulty] at hperm
  exact ⟨ok, s', fs, hstep, hdiagnostics, hperm⟩

end Session

end Demand.Compiler
