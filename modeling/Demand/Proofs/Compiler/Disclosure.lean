import Demand.Proofs.Compiler.Findings

/-!
# Nothing bad goes unreported

Every evaluation reports genuine findings about the file of its request and nothing else, and keeps
two facts about what is served (`Told`), as a layer over what the compiler answers (`disclosing`):

* if a result is bad (a file that cannot be read, a value that is not there, a check that fails), an
  error in its file was reported;
* the values that are served can be put in the order in which they were finished, and each name in
  one of them denotes a value that was finished before, or one of which it was reported that it
  depends on itself, by way of the value with the name last (`Ordered`).

So on every circuit of declarations the value that is finished first is named in a report.
-/

namespace Demand

/-- The report is an error in the file. -/
def Diagnostic.IsErrorIn (x : Diagnostic) (f : FileId) : Prop :=
  x.isError = true ∧ ∃ l, x.location = some l ∧ l.file = f

end Demand

namespace Demand.Compiler

open Demand.Language

/-! ## What was reported -/

/-- The reports have these among them, one after the other, and no note follows. -/
def HasGroup (xs group : List Diagnostic) : Prop :=
  ∃ pre post, xs = pre ++ group ++ post ∧ ∀ n ∈ post.head?, n.severity ≠ .note

/-- A circuit was reported from the second declaration, by way of the first in the last place. -/
def Backs (f : SourceFile) (u v : Declaration) (xs : List Diagnostic) : Prop :=
  ∃ c, HasGroup xs (circuitReport f c) ∧ Circuit (declarations f) c ∧ c.Nodup ∧
    c.head? = some v ∧ c.getLast? = some u

/-- An error in the file was reported. -/
def Blamed (f : SourceFile) (xs : List Diagnostic) : Prop :=
  ∃ x ∈ xs, x.IsErrorIn f.id

section Reports

variable {f g : SourceFile} {fs : List Finding} {xs group : List Diagnostic} {u v : Declaration}

/-- Findings begin with an error. -/
theorem head?_findings (h : ∀ x ∈ fs, x.Genuine f) :
    ∀ n ∈ (fs.flatMap (Finding.diagnostics f)).head?, n.severity ≠ .note := by
  cases fs with
  | nil =>
    intro n hn
    cases hn
  | cons x fs =>
    obtain ⟨span, message, notes, hx, -⟩ := (h x List.mem_cons_self).exists_diagnostics
    intro n hn
    rw [List.flatMap_cons, hx] at hn
    cases hn
    exact Severity.noConfusion

/-- What was reported stays together. -/
theorem HasGroup.append (h : HasGroup xs group) (hfs : ∀ x ∈ fs, x.Genuine f) :
    HasGroup (xs ++ fs.flatMap (Finding.diagnostics f)) group := by
  obtain ⟨pre, post, rfl, hpost⟩ := h
  refine ⟨pre, post ++ fs.flatMap (Finding.diagnostics f), by simp, ?_⟩
  cases post with
  | nil => exact head?_findings hfs
  | cons n post => exact hpost

theorem Backs.append (h : Backs g u v xs) (hfs : ∀ x ∈ fs, x.Genuine f) :
    Backs g u v (xs ++ fs.flatMap (Finding.diagnostics f)) := by
  obtain ⟨c, hc, hends⟩ := h
  exact ⟨c, hc.append hfs, hends⟩

theorem Blamed.append (h : Blamed f xs) (ys : List Diagnostic) : Blamed f (xs ++ ys) := by
  obtain ⟨x, hx, herror⟩ := h
  exact ⟨x, List.mem_append_left _ hx, herror⟩

theorem Finding.Genuine.blamed {x : Finding} (h : x.Genuine f) : Blamed f (x.diagnostics f) := by
  obtain ⟨span, message, notes, hx, -⟩ := h.exists_diagnostics
  rw [hx]
  exact ⟨_, List.mem_cons_self, rfl, _, rfl, rfl⟩

end Reports

/-! ## What is served -/

/-- The result is one that needs an error in its file. -/
def Bad : (r : Request) → r.Output → Prop
  | .parseModule _, ds? => ds? = none
  | .value _, v? => v? = none
  | .check _, ok => ok = false
  | .lookup .., _ | .emit _, _ => False

/-- The name in the value of the definition was looked up, and the value of what it denotes is
served, or it was reported that it depends on itself. -/
def Covered (d : Definition) (m : String) (s : State family) : Prop :=
  ∃ d?, s.served? (.lookup d.file m) = some d? ∧ ∀ d' ∈ d?,
    (s.served? (.value d')).isSome ∨ Backs d.file d.declaration d'.declaration s.diagnostics

/-- Each name in one of the values denotes a later one in the list, or one of which it was reported
that it depends on itself. -/
def Ordered (s : State family) : List Definition → Prop
  | [] => True
  | d :: done => (∀ m ∈ names d.declaration.value, ∃ d?, s.served? (.lookup d.file m) = some d? ∧
      ∀ d' ∈ d?, d' ∈ done ∨ Backs d.file d.declaration d'.declaration s.diagnostics) ∧
    Ordered s done

/-- What was reported by the time results are served. -/
structure Told (s : State family) : Prop where
  blamed : ∀ r out, s.served? r = some out → Bad r out → Blamed r.file s.diagnostics
  /-- The last value to be finished is the first of the list. -/
  ordered : ∃ done, Ordered s done ∧ ∀ d, d ∈ done ↔ (s.served? (.value d)).isSome

/-- On the way from the first state to the second, genuine findings about the file are reported and
nothing else. -/
structure Found (f : SourceFile) (s s' : State family) : Prop where
  grows : Grows s s'
  findings : ∃ fs : List Finding, s'.diagnostics = s.diagnostics ++ fs.flatMap (Finding.diagnostics f) ∧
    ∀ x ∈ fs, x.Genuine f
  told : Told s'

section Found

variable {f g : SourceFile} {s₀ s s' : State family} {d : Definition} {m : String}

theorem isSome_of_grows {r : Request} (h : Grows s s') (hr : (s.served? r).isSome) :
    (s'.served? r).isSome := by
  obtain ⟨out, hout⟩ := Option.isSome_iff_exists.1 hr
  exact Option.isSome_iff_exists.2 ⟨out, h r out hout⟩

theorem Blamed.mono (h : Blamed g s.diagnostics) (hf : Found f s s') : Blamed g s'.diagnostics := by
  obtain ⟨fs, hfs, -⟩ := hf.findings
  rw [hfs]
  exact h.append _

theorem Backs.mono {u v : Declaration} (h : Backs g u v s.diagnostics) (hf : Found f s s') :
    Backs g u v s'.diagnostics := by
  obtain ⟨fs, hfs, hgenuine⟩ := hf.findings
  rw [hfs]
  exact h.append hgenuine

theorem Covered.mono (h : Covered d m s) (hf : Found f s s') : Covered d m s' := by
  obtain ⟨d?, hserved, hcovered⟩ := h
  refine ⟨d?, hf.grows _ _ hserved, fun d' hd' => ?_⟩
  exact (hcovered d' hd').imp (isSome_of_grows hf.grows) fun hbacks => hbacks.mono hf

theorem Ordered.mono {done : List Definition} (h : Ordered s done) (hgrows : Grows s s')
    (hbacks : ∀ f u v, Backs f u v s.diagnostics → Backs f u v s'.diagnostics) :
    Ordered s' done := by
  induction done with
  | nil => trivial
  | cons d done ih =>
    refine ⟨fun m hm => ?_, ih h.2⟩
    obtain ⟨d?, hserved, hd?⟩ := h.1 m hm
    exact ⟨d?, hgrows _ _ hserved, fun d' hd' => (hd? d' hd').imp_right (hbacks _ _ _)⟩

theorem Told.start (h : ∀ r, s.served? r = none) : Told s := by
  refine ⟨fun r out hr => ?_, [], trivial, fun d => ?_⟩
  · rw [h] at hr
    cases hr
  · rw [h]
    simp

/-- Reports do not take back what was told. -/
theorem Told.find (h : Told s) (hserved : ∀ q, s'.served? q = s.served? q) {fs : List Finding}
    (hfs : ∀ x ∈ fs, x.Genuine f)
    (hdiagnostics : s'.diagnostics = s.diagnostics ++ fs.flatMap (Finding.diagnostics f)) :
    Told s' := by
  obtain ⟨done, hordered, hdone⟩ := h.ordered
  refine ⟨fun r out hr hbad => ?_, done, ?_, fun d => ?_⟩
  · rw [hdiagnostics]
    exact (h.blamed r out ((hserved r).symm.trans hr) hbad).append _
  · refine hordered.mono (fun q _ hq => (hserved q).trans hq) fun _ _ _ hbacks => ?_
    rw [hdiagnostics]
    exact hbacks.append hfs
  · rw [hserved]
    exact hdone d

theorem Found.of_findings (fs : List Finding) (h : Told s)
    (hserved : ∀ q, s'.served? q = s.served? q) (hfs : ∀ x ∈ fs, x.Genuine f)
    (hdiagnostics : s'.diagnostics = s.diagnostics ++ fs.flatMap (Finding.diagnostics f)) :
    Found f s s' :=
  ⟨fun q _ hq => (hserved q).trans hq, ⟨fs, hdiagnostics, hfs⟩, h.find hserved hfs hdiagnostics⟩

/-- Steps that report nothing. -/
theorem Found.quiet (h : Told s) (hserved : ∀ q, s'.served? q = s.served? q)
    (hdiagnostics : s'.diagnostics = s.diagnostics) : Found f s s' := by
  refine .of_findings [] h hserved (fun x hx => ?_) ?_
  · cases hx
  · rw [hdiagnostics]
    simp

theorem Found.start (h : Told s) : Found f s s :=
  .quiet h (fun _ => rfl) rfl

theorem Found.trans (h : Found f s₀ s) (h' : Found f s s') : Found f s₀ s' := by
  obtain ⟨fs, hfs, hgenuine⟩ := h.findings
  obtain ⟨fs', hfs', hgenuine'⟩ := h'.findings
  refine ⟨fun q v hq => h'.grows q v (h.grows q v hq), ⟨fs ++ fs', ?_, ?_⟩, h'.told⟩
  · rw [hfs', hfs, List.flatMap_append, List.append_assoc]
  · exact List.forall_mem_append.2 ⟨hgenuine, hgenuine'⟩

/-- A request that ends is served, and what its result needs was reported. -/
theorem Told.leaves {r : Request} {out : Request.Output r} (h : Told s)
    (hout : Leaves rules r out s s') (hnone : s.served? r = none)
    (hbad : Bad r out → Blamed r.file s.diagnostics)
    (hcovered : ∀ d, r = .value d → ∀ m ∈ names d.declaration.value, Covered d m s) : Told s' := by
  have hgrows := grows_of_leaves hout hnone
  have hdiagnostics : s'.diagnostics = s.diagnostics := hout.diagnostics
  obtain ⟨done, hordered, hdone⟩ := h.ordered
  have hordered' : Ordered s' done := hordered.mono hgrows fun _ _ _ hb => by rwa [hdiagnostics]
  refine ⟨fun q v hq hv => ?_, ?_⟩
  · rw [hdiagnostics]
    by_cases hqr : q = r
    · subst hqr
      rw [hout.served?_self lawful hq] at hv
      exact hbad hv
    · exact h.blamed q v ((hout.served?_of_ne lawful hqr).symm.trans hq) hv
  · cases hr : r.value? with
    | none =>
      refine ⟨done, hordered', fun d => ?_⟩
      have hne : Request.value d ≠ r := by
        rintro rfl
        cases hr
      rw [hout.served?_of_ne lawful hne]
      exact hdone d
    | some d =>
      obtain rfl : r = .value d := by
        cases r with
        | value d' => exact congrArg _ (Option.some.inj hr)
        | parseModule | lookup | check | emit => cases hr
      have hself : s'.served? (.value d) = some out := by
        rw [State.served?, if_pos (show family.inEngine (.value d) = true from rfl),
          hout.result_self rfl]
      refine ⟨d :: done, ⟨fun m hm => ?_, hordered'⟩, fun d' => ?_⟩
      · obtain ⟨d?, hserved, hd?⟩ := hcovered d rfl m hm
        refine ⟨d?, hgrows _ _ hserved, fun d' hd' => ?_⟩
        rw [hdiagnostics]
        exact (hd? d' hd').imp_left (hdone d').2
      · by_cases heq : d' = d
        · subst heq
          simp [hself]
        · have hne : Request.value d' ≠ .value d := fun h => heq (Request.value.inj h)
          rw [hout.served?_of_ne lawful hne, List.mem_cons, hdone d']
          simp [heq]

end Found

/-! ## What bodies report -/

/-- A value that is asked for is that of a declaration of its file. -/
def Request.Declared (r : Request) : Prop :=
  ∀ d, r = .value d → d.declaration ∈ declarations d.file

/-- The answer to a request: genuine findings were reported on the way, an error if the result is bad
or there is none, and of a value that is active that it depends on itself. -/
structure Disclosed (stack : List Request) (r : Request) (s : State family) (o : Outcome family r)
    (s' : State family) : Prop where
  found : Found r.file s s'
  blamed : (∀ out, o = .ok out → Bad r out) → Blamed r.file s'.diagnostics
  backed : ∀ c d u, o = .error c → r = .value d → stack.head? = some (.value u) →
    Backs d.file u.declaration d.declaration s'.diagnostics
  /-- Code is given for what was checked. -/
  checked : ∀ f, r = .emit f → (s'.served? (.check f)).isSome

/-- The task reports what it should, if what it asks for does. -/
abbrev Discloses {α : Type} (stack : List Request) (t : Task family α) (s : State family)
    (Q : α → State family → Prop) : Prop :=
  t.Safe (fun q s => Told s ∧ q.Declared)
    (fun q s o s' => Answers stack q s o s' ∧ Answered q o s' ∧ Disclosed stack q s o s') stack s Q

section Discloses

variable {f : SourceFile} {limit n : Nat} {stack : List Request} {s : State family}

/-- What a task does for its result, it does while it reports. -/
theorem discloses_runs {α : Type} {t : Task family α} {Q Q' : α → State family → Prop}
    (hruns : Runs limit n stack t s Q) (h : Discloses stack t s Q') :
    Discloses stack t s fun a s' => Q a s' ∧ Q' a s' :=
  hruns.join h fun _ _ _ _ ha => ⟨ha.1, ha.2.1⟩

theorem discloses_say (hs : Told s) (level : LogLevel) (text : String) :
    Discloses stack (Task.say level text) s fun _ s' => Found f s s' :=
  .quiet hs (Still.log s level text).served? rfl

theorem discloses_report (hs : Told s) {p : Problem} (hp : p.Arises f) :
    Discloses stack (reportProblem f p) s fun _ s' =>
      Found f s s' ∧ Blamed f s'.diagnostics := by
  have hgenuine : (Finding.problem p).Genuine f := hp
  refine (Task.safe_reportAll (p.diagnostics f)).mono ?_
  rintro _ s' ⟨hstill, hdiagnostics⟩
  have hfound : Found f s s' :=
    .of_findings [.problem p] hs hstill.served? (by simpa using hgenuine)
      (by simpa [Finding.diagnostics] using hdiagnostics)
  refine ⟨hfound, ?_⟩
  rw [hdiagnostics]
  obtain ⟨x, hx, herror⟩ := hgenuine.blamed
  exact ⟨x, List.mem_append_right _ hx, herror⟩

/-- A request for anything but a value is answered with a result, and if it is bad, an error was
reported. -/
theorem discloses_ask {α : Type} {q : Request} (hv : q.value? = none) (hs : Told s)
    {next : Outcome family q → Task family α} {Q : α → State family → Prop}
    (hnext : ∀ out s', Meets q out → (family.inEngine q → s'.served? q = some out) →
      Found q.file s s' → (Bad q out → Blamed q.file s'.diagnostics) →
      Discloses stack (next (.ok out)) s' Q) : Discloses stack (.ask q next) s Q := by
  have hdeclared : q.Declared := by
    rintro d rfl
    cases hv
  refine ⟨⟨hs, hdeclared⟩, fun o s' ⟨hanswers, hanswered, hdisclosed⟩ => ?_⟩
  cases o with
  | ok out =>
    refine hnext out s' (hanswered.meets out rfl) (hanswers.kept out rfl) hdisclosed.found ?_
    intro hbad
    refine hdisclosed.blamed ?_
    rintro _ ⟨⟩
    exact hbad
  | error c =>
    obtain ⟨d, rfl, -⟩ := hanswered.error c rfl
    cases hv

theorem discloses_parse (hs : Told s) :
    Discloses stack (Task.evaluateD (F := family) (.parseModule f) none) s fun ds? s' =>
      Meets (.parseModule f) ds? ∧ Found f s s' ∧ (ds? = none → Blamed f s'.diagnostics) :=
  discloses_ask rfl hs fun _ _ hds _ hfound hbad => ⟨hds, hfound, hbad⟩

theorem discloses_lookup (hs : Told s) (m : String) :
    Discloses stack (Task.evaluateD (F := family) (.lookup f m) none) s fun d? s' =>
      Meets (.lookup f m) d? ∧ s'.served? (.lookup f m) = some d? ∧ Found f s s' :=
  discloses_ask rfl hs fun _ _ hd hserved hfound _ => ⟨hd, hserved rfl, hfound⟩

theorem discloses_value {d : Definition} (hs : Told s) (hd : d.declaration ∈ declarations d.file) :
    Discloses stack (Task.evaluateD (F := family) (.value d) none) s fun v? s' =>
      Found d.file s s' ∧ (v? = none → Blamed d.file s'.diagnostics) ∧
      ∀ u, stack.head? = some (.value u) → (s'.served? (.value d)).isSome ∨
        Backs d.file u.declaration d.declaration s'.diagnostics := by
  have hdeclared : (Request.value d).Declared := by
    rintro _ ⟨⟩
    exact hd
  refine ⟨⟨hs, hdeclared⟩, fun o s' ⟨hanswers, _, hdisclosed⟩ => ⟨hdisclosed.found, ?_, ?_⟩⟩
  · intro hnone
    refine hdisclosed.blamed ?_
    rintro out rfl
    exact hnone
  · intro u hu
    cases o with
    | ok out => exact .inl (Option.isSome_iff_exists.2 ⟨out, hanswers.kept out rfl rfl⟩)
    | error c => exact .inr (hdisclosed.backed c d u rfl rfl hu)

/-! ### Values -/

/-- An operation on integers: its result fits, or it is reported that it does not. -/
theorem discloses_settle (hs : Told s) {span : Span} {m : Int}
    (hp : ¬ Fits m → (Problem.overflow span).Arises f) :
    Discloses stack (settle f span m) s fun v? s' =>
      Found f s s' ∧ (v? = none → Blamed f s'.diagnostics) := by
  unfold settle
  cases hm : fitting m with
  | some w =>
    refine ⟨.start hs, fun h => ?_⟩
    cases h
  | none =>
    have hnot : ¬ Fits m := by
      intro hfits
      rw [fitting_eq_some_iff.2 ⟨rfl, hfits⟩] at hm
      cases hm
    exact (discloses_report hs (hp hnot)).bind fun _ s' h => ⟨h.1, fun _ => h.2⟩

variable {d : Definition}

theorem discloses_name (hhead : stack.head? = some (.value d)) {m : String} {span : Span}
    (hp : ∀ p ∈ exprProblems (declarations d.file) (.name m span), p.Arises d.file)
    (hs : Told s) :
    Discloses stack (fold d.file (.name m span)) s fun v? s' =>
      Found d.file s s' ∧ (v? = none → Blamed d.file s'.diagnostics) ∧ Covered d m s' := by
  refine (discloses_lookup hs m).bind ?_
  rintro d? s₁ ⟨⟨hfind, hfile⟩, hserved, h₁⟩
  cases d? with
  | none =>
    have hunknown : findDeclaration (declarations d.file) m = none := hfind.symm
    have harises : (Problem.unknownName m span).Arises d.file := by
      refine hp _ ?_
      rw [exprProblems_name, nodeProblems, Problem.given_of hunknown]
      exact List.mem_singleton_self _
    refine (discloses_report h₁.told harises).bind fun _ s₂ h₂ => ?_
    refine ⟨h₁.trans h₂.1, fun _ => h₂.2, none, h₂.1.grows _ _ hserved, ?_⟩
    rintro d' ⟨⟩
  | some d' =>
    have hf : d'.file = d.file := hfile d' rfl
    have hd' : d'.declaration ∈ declarations d'.file := by
      rw [hf]
      exact List.mem_of_find?_eq_some hfind.symm
    refine (discloses_value h₁.told hd').mono ?_
    rintro v? s₂ ⟨h₂, hblamed, hcovered⟩
    rw [hf] at h₂ hblamed hcovered
    refine ⟨h₁.trans h₂, hblamed, some d', h₂.grows _ _ hserved, ?_⟩
    rintro _ ⟨⟩
    exact hcovered d hhead

/-- Every name in the value is looked at, also where another part has no value. -/
theorem discloses_fold (hroom : ∀ q, Asks (.value d) q → Room limit n stack q)
    (hhead : stack.head? = some (.value d)) (e : Expr)
    (he : ∀ m ∈ names e, m ∈ names d.declaration.value)
    (hp : ∀ p ∈ exprProblems (declarations d.file) e, p.Arises d.file)
    (hsits : Sits stack s) (hs : Told s) :
    Discloses stack (fold d.file e) s fun v? s' =>
      Found d.file s s' ∧ (v? = none → Blamed d.file s'.diagnostics) ∧
        ∀ m ∈ names e, Covered d m s' := by
  induction e generalizing s with
  | integer v span =>
    refine ⟨.start hs, fun h => ?_, fun m hm => ?_⟩
    · cases h
    · cases hm
  | name m span =>
    refine (discloses_name hhead hp hs).mono ?_
    rintro v? s' ⟨hfound, hblamed, hcovered⟩
    refine ⟨hfound, hblamed, fun m' hm' => ?_⟩
    rw [List.mem_singleton.1 hm']
    exact hcovered
  | negate e span ih =>
    rw [exprProblems_negate] at hp
    have hp' : ∀ p ∈ exprProblems (declarations d.file) e, p.Arises d.file := fun p h =>
      hp p (List.mem_append_right _ h)
    refine (discloses_runs (runs_fold hroom e he hsits) (ih he hp' hsits hs)).bind ?_
    rintro v? s₁ ⟨⟨-, hv⟩, h₁, hblamed, hcovered⟩
    cases v? with
    | none => exact ⟨h₁, hblamed, hcovered⟩
    | some v =>
      have harises : ¬ Fits (-v) → (Problem.overflow span).Arises d.file := by
        intro hnot
        refine hp _ (List.mem_append_left _ ?_)
        rw [nodeProblems, Problem.given_of ⟨v, (hv v).1 rfl, hnot⟩]
        exact List.mem_singleton_self _
      refine (discloses_settle h₁.told harises).mono ?_
      rintro w? s₂ ⟨h₂, hblamed₂⟩
      exact ⟨h₁.trans h₂, hblamed₂, fun m hm => (hcovered m hm).mono h₂⟩
  | binary op l r span ihl ihr =>
    rw [exprProblems_binary] at hp
    have hl : ∀ m ∈ names l, m ∈ names d.declaration.value := fun m hm =>
      he m (List.mem_append_left _ hm)
    have hr : ∀ m ∈ names r, m ∈ names d.declaration.value := fun m hm =>
      he m (List.mem_append_right _ hm)
    have hpl : ∀ p ∈ exprProblems (declarations d.file) l, p.Arises d.file := fun p h =>
      hp p (List.mem_append_right _ (List.mem_append_left _ h))
    have hpr : ∀ p ∈ exprProblems (declarations d.file) r, p.Arises d.file := fun p h =>
      hp p (List.mem_append_right _ (List.mem_append_right _ h))
    refine (discloses_runs (runs_fold hroom l hl hsits) (ihl hl hpl hsits hs)).bind ?_
    rintro a? s₁ ⟨⟨hsits₁, ha⟩, h₁, hblamed₁, hcovered₁⟩
    refine (discloses_runs (runs_fold hroom r hr hsits₁) (ihr hr hpr hsits₁ h₁.told)).bind ?_
    rintro b? s₂ ⟨⟨-, hb⟩, h₂, hblamed₂, hcovered₂⟩
    have hcovered : ∀ m ∈ names (.binary op l r span), Covered d m s₂ := by
      intro m hm
      rcases List.mem_append.1 hm with hm | hm
      · exact (hcovered₁ m hm).mono h₂
      · exact hcovered₂ m hm
    cases a? with
    | none => exact ⟨h₁.trans h₂, fun _ => (hblamed₁ rfl).mono h₂, hcovered⟩
    | some a =>
      cases b? with
      | none => exact ⟨h₁.trans h₂, hblamed₂, hcovered⟩
      | some b =>
        have harises : ¬ Fits (op.apply a b) → (Problem.overflow span).Arises d.file := by
          intro hnot
          refine hp _ (List.mem_append_left _ ?_)
          rw [nodeProblems, Problem.given_of ⟨a, b, (ha a).1 rfl, (hb b).1 rfl, hnot⟩]
          exact List.mem_singleton_self _
        refine (discloses_settle h₂.told harises).mono ?_
        rintro w? s₃ ⟨h₃, hblamed₃⟩
        exact ⟨(h₁.trans h₂).trans h₃, hblamed₃, fun m hm => (hcovered m hm).mono h₃⟩

/-! ### Checks and code -/

theorem discloses_checkAll {all : List Definition}
    (hall : declarations? f = some (all.map Definition.declaration)) (hfile : ∀ d ∈ all, d.file = f)
    (ds : List Definition) (hds : ∀ d ∈ ds, d ∈ all) (hs : Told s) :
    Discloses stack (checkAll f all ds) s fun ok s' =>
      Found f s s' ∧ (ok = false → Blamed f s'.diagnostics) := by
  induction ds generalizing s with
  | nil =>
    refine ⟨.start hs, fun h => ?_⟩
    cases h
  | cons d ds ih =>
    have hd : d ∈ all := hds d List.mem_cons_self
    have hrest : ∀ d ∈ ds, d ∈ all := fun d hd => hds d (List.mem_cons_of_mem _ hd)
    rw [checkAll]
    cases hdup : (Definition.find? all d.name).filter fun first => first ≠ d with
    | some first =>
      have harises : (Problem.duplicate d.declaration first.declaration).Arises f := by
        refine .inr (.inl ?_)
        rw [← repeated_eq_duplicates hall]
        exact List.mem_filterMap.2 ⟨d, hd, by rw [hdup]; rfl⟩
      refine (discloses_report hs harises).bind ?_
      rintro _ s₁ ⟨h₁, hblamed⟩
      refine (ih hrest h₁.told).bind ?_
      rintro rest s₂ ⟨h₂, -⟩
      exact ⟨h₁.trans h₂, fun _ => hblamed.mono h₂⟩
    | none =>
      have hf := hfile d hd
      have hmem : d.declaration ∈ declarations d.file := by
        rw [hf, declarations_eq hall]
        exact List.mem_map_of_mem hd
      refine (discloses_value hs hmem).bind ?_
      rintro v? s₁ ⟨h₁, hblamed₁, -⟩
      rw [hf] at h₁ hblamed₁
      refine (ih hrest h₁.told).bind ?_
      rintro rest s₂ ⟨h₂, hblamed₂⟩
      refine ⟨h₁.trans h₂, fun hok => ?_⟩
      -- the check fails at this definition or at a later one
      rcases Bool.and_eq_false_iff.1 hok with hok | hok
      · exact (hblamed₁ (by simpa using hok)).mono h₂
      · exact hblamed₂ hok

theorem discloses_check (hs : Told s) :
    Discloses stack (check f) s fun ok s' =>
      Found f s s' ∧ (ok = false → Blamed f s'.diagnostics) := by
  refine (discloses_say (f := f) hs _ _).bind fun _ s₁ h₁ => ?_
  refine (discloses_parse h₁.told).bind ?_
  rintro ds? s₂ ⟨⟨hds, hfile⟩, h₂, hblamed⟩
  cases ds? with
  | none => exact ⟨h₁.trans h₂, fun _ => hblamed rfl⟩
  | some ds =>
    refine (discloses_checkAll hds.symm (hfile ds rfl) ds (fun _ hd => hd) h₂.told).mono ?_
    rintro ok s₃ ⟨h₃, hblamed₃⟩
    exact ⟨(h₁.trans h₂).trans h₃, hblamed₃⟩

theorem discloses_emitAll (ds : List Definition)
    (hds : ∀ d ∈ ds, d.file = f ∧ d.declaration ∈ declarations f) (hs : Told s) :
    Discloses stack (emitAll ds) s fun _ s' => Found f s s' := by
  induction ds generalizing s with
  | nil => exact .start hs
  | cons d ds ih =>
    obtain ⟨hf, hd⟩ := hds d List.mem_cons_self
    refine (discloses_value hs (by rw [hf]; exact hd)).bind ?_
    rintro v? s₁ ⟨h₁, -⟩
    rw [hf] at h₁
    cases v? with
    | none => exact h₁
    | some v =>
      have hrest := ih (fun d hd => hds d (List.mem_cons_of_mem _ hd)) h₁.told
      exact hrest.bind fun _ s₂ h₂ => h₁.trans h₂

theorem discloses_emit (hs : Told s) :
    Discloses stack (emit f) s fun _ s' =>
      Found f s s' ∧ (s'.served? (.check f)).isSome := by
  refine discloses_ask rfl hs fun ok s₁ _ hkept h₁ _ => ?_
  refine discloses_ask rfl h₁.told fun ds? s₂ hds _ h₂ _ => ?_
  have h₁₂ : Found f s s₂ := h₁.trans h₂
  have hchecked : (s₂.served? (.check f)).isSome :=
    Option.isSome_iff_exists.2 ⟨ok, h₂.grows _ _ (hkept rfl)⟩
  cases ok with
  | false => exact ⟨h₁₂, hchecked⟩
  | true =>
    cases ds? with
    | none => exact ⟨h₁₂, hchecked⟩
    | some ds =>
      obtain ⟨hds, hfile⟩ := hds
      have hmem : ∀ d ∈ ds, d.file = f ∧ d.declaration ∈ declarations f := by
        intro d hd
        refine ⟨hfile ds rfl d hd, ?_⟩
        rw [declarations_eq hds.symm]
        exact List.mem_map_of_mem hd
      refine (discloses_emitAll ds hmem h₂.told).bind fun _ s₃ h₃ => ?_
      exact ⟨h₁₂.trans h₃, isSome_of_grows h₃.grows hchecked⟩

/-! ### All requests -/

/-- Every body reports genuine findings, and an error if its result is bad. -/
theorem discloses_body {r : Request} (hroom : ∀ q, Asks r q → Room limit n (r :: stack) q)
    (hsits : Sits (r :: stack) s) (hs : Told s) (hr : r.Declared) :
    Discloses (r :: stack) (rules.body r) s fun out s' =>
      Found r.file s s' ∧ (Bad r out → Blamed r.file s'.diagnostics) ∧
        (∀ d, r = .value d → ∀ m ∈ names d.declaration.value, Covered d m s') ∧
        ∀ f, r = .emit f → (s'.served? (.check f)).isSome := by
  cases r with
  | parseModule f =>
    refine (discloses_say (f := f) hs _ _).bind fun _ s₁ h₁ => ?_
    cases hread : readDeclarations f.content with
    | error p =>
      refine (discloses_report h₁.told (.inl hread)).bind fun _ s₂ ⟨h₂, hblamed⟩ => ?_
      refine ⟨h₁.trans h₂, fun _ => hblamed, ?_, ?_⟩ <;> rintro _ ⟨⟩
    | ok ds =>
      have hvisit := @Still.visit family s₁ (fun w => ⟨w.readings + 1⟩) fun _ _ => rfl
      refine ⟨h₁.trans (.quiet h₁.told hvisit.served? rfl), fun hbad => ?_, ?_, ?_⟩
      · cases hbad
      · rintro _ ⟨⟩
      · rintro _ ⟨⟩
  | lookup f m =>
    refine (discloses_parse hs).bind fun _ s₁ ⟨_, h₁, _⟩ => ⟨h₁, False.elim, ?_, ?_⟩ <;>
      rintro _ ⟨⟩
  | value d =>
    have hp : ∀ p ∈ exprProblems (declarations d.file) d.declaration.value, p.Arises d.file :=
      fun p hp => .inr (.inr ⟨d.declaration, hr d rfl, hp⟩)
    have hsays : Runs limit n (.value d :: stack) (Task.say .trace s!"folding `{d.name}`") s
        fun _ s' => Sits (.value d :: stack) s' := runs_say hsits _ _
    refine (discloses_runs hsays (discloses_say (f := d.file) hs _ _)).bind ?_
    rintro _ s₁ ⟨hsits₁, h₁⟩
    refine (discloses_fold hroom rfl d.declaration.value (fun _ hm => hm) hp hsits₁ h₁.told).mono ?_
    rintro v? s₂ ⟨h₂, hblamed, hcovered⟩
    refine ⟨h₁.trans h₂, hblamed, ?_, ?_⟩
    · rintro _ ⟨⟩
      exact hcovered
    · rintro _ ⟨⟩
  | check f =>
    refine (discloses_check hs).mono fun ok s' ⟨h, hblamed⟩ => ⟨h, hblamed, ?_, ?_⟩ <;> rintro _ ⟨⟩
  | emit f =>
    refine (discloses_emit hs).mono fun _ s' ⟨h, hchecked⟩ => ⟨h, False.elim, ?_, ?_⟩
    · rintro _ ⟨⟩
    · rintro _ ⟨⟩
      exact hchecked

end Discloses

/-! ## Every evaluation -/

/-- Every evaluation of the compiler reports what it should and nothing else. -/
def disclosing (limit : Nat) : Layer (compiling limit) where
  before _ r s := Told s ∧ r.Declared
  after stack r s o s' := Disclosed stack r s o s'
  cycle := fun {n stack r s s'} hb h hr hc => by
    obtain ⟨d, via, rfl, hreport, hgenuine, hlast⟩ := genuine_cycle hb.1 hb.2 hr
    change (Finding.cycle d via).Genuine d.file at hgenuine
    have hdiagnostics : s'.diagnostics = s.diagnostics ++ (Finding.cycle d via).diagnostics d.file :=
      hc.diagnostics.trans (congrArg _ hreport)
    have hfound : Found d.file s s' :=
      .of_findings [.cycle d via] h.1 hc.served? (by simpa using hgenuine)
        (by simpa using hdiagnostics)
    refine ⟨hfound, fun _ => ?_, ?_, ?_⟩
    · obtain ⟨x, hx, herror⟩ := hgenuine.blamed
      rw [hdiagnostics]
      exact ⟨x, List.mem_append_right _ hx, herror⟩
    · rintro c _ u - ⟨⟩ hu
      refine ⟨circuitOf d via, ⟨s.diagnostics, [], ?_, ?_⟩, hgenuine.2.1, hgenuine.2.2, rfl,
        hlast u hu⟩
      · rw [hdiagnostics, diagnostics_cycle hgenuine.1, List.append_nil]
      · rintro n ⟨⟩
    · rintro _ ⟨⟩
  hit := fun {n stack r s out s'} _ h _ hout hserves => by
    have hfound : Found r.file s s' := .quiet h.1 (hserves.served? lawful) hserves.diagnostics
    refine ⟨hfound, fun hbad => ?_, ?_, ?_⟩
    · exact (h.1.blamed r out hout (hbad out rfl)).mono hfound
    · rintro c d u ⟨⟩
    · -- code is not kept, so it is not served
      rintro f rfl
      cases hout
  body := fun {n stack r s s₁} hb h hr hnone hin => by
    have henters : Found r.file s s₁ := .quiet h.1 hin.served? hin.diagnostics
    have hbody := discloses_body (fun q hq => hb.1.push hb.2 hr hq) (hb.2.enters hin)
      henters.told h.2
    refine (hbody.frame (keeps _) fun _ _ _ _ hafter => hafter.1.toFrame).mono ?_
    rintro out s₂ ⟨hframe, hfound, hblamed, hcovered, hchecked⟩ s' hout
    -- the request is active while its body runs, so nothing else gives it a result
    have hnone₂ : s₂.served? r = none := by
      rw [hframe.served_active r List.mem_cons_self, hin.served?, hnone]
    have hleaves : Found r.file s₂ s' := by
      refine ⟨grows_of_leaves hout hnone₂, ⟨[], ?_, fun x hx => ?_⟩,
        hfound.told.leaves hout hnone₂ hblamed hcovered⟩
      · rw [hout.diagnostics]
        simp
      · cases hx
    refine ⟨(henters.trans hfound).trans hleaves, fun hbad => ?_, ?_, fun f hr => ?_⟩
    · exact (hblamed (hbad out rfl)).mono hleaves
    · rintro c d u ⟨⟩
    · exact isSome_of_grows hleaves.grows (hchecked f hr)

/-- What an evaluation from outside reports and leaves. -/
theorem found_of_evaluate {files : List SourceFile} {r : Request} (hr : r.file ∈ files)
    {s s' : State family} (hs : Sits [] s) (htold : Told s) (hd : r.Declared)
    {o : Outcome family r} (h : evaluate files r s = .ok o s') :
    Sits [] s' ∧ Found r.file s s' ∧
      ∀ f, r = .check f ∨ r = .emit f → (s'.served? (.check f)).isSome := by
  have hends := (disclosing _).discipline.ends lawful (depth files s) [] r s
    ⟨⟨room_start hr s, hs.single r⟩, htold, hd⟩
  obtain ⟨hanswers, hanswered, hdisclosed⟩ := hends.of_ok h
  refine ⟨hs.persists hanswers.toPersists hanswered.correct, hdisclosed.found, ?_⟩
  rintro f (rfl | rfl)
  · cases o with
    | ok out => exact Option.isSome_iff_exists.2 ⟨out, hanswers.kept out rfl rfl⟩
    | error c => exact absurd (hanswers.error_iff.1 ⟨c, rfl⟩) List.not_mem_nil
  · exact hdisclosed.checked f rfl

end Demand.Compiler
