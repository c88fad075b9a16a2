import Demand.Proofs.Compiler.Endurance
import Demand.Proofs.Language.Places
import Demand.Proofs.Snippet.Labels

/-!
# Where the compiler points

Whatever results were given or dropped before, the compiler points into its files. The definitions
that are served and active are declarations of the files (`Legible`, `Sited`), and what is wrong
with a file or with one of its declarations stands in the text. Only values can depend on
themselves, and these are pointed at by the names of their definitions.

There is one exception. A file can be given definitions of another one as its own, and two of them
that have one name are then reported in a text that they are not from (`Strays`). A value is
computed in the file of its definition, so that other misplaced definitions do no harm.

Every evaluation keeps this (`pointing`).
-/

namespace Demand.Compiler

open Demand.Language

/-! ## Declarations and problems -/

theorem inText_of_declarations {f : SourceFile} {d : Declaration} (h : d ∈ declarations f) :
    d.InText f.content := by
  unfold declarations at h
  cases hds : declarations? f with
  | none =>
    rw [hds] at h
    cases h
  | some ds =>
    rw [hds] at h
    obtain ⟨ts, hlex, hparse⟩ := read_of_declarations? hds
    exact inText_of_parse hlex hparse d h

section Shown

variable {files : List SourceFile} {f : SourceFile}

theorem shownIn_of_inText (hf : f ∈ files) {span : Span} (h : span.InText f.content)
    (severity : Severity) (message : String) :
    Diagnostic.ShownIn files ⟨severity, some (f.locate span), message⟩ :=
  .inr ⟨f.locate span, rfl, f, hf, rfl, h.nonempty, h.stop_le⟩

theorem shownIn_note (message : String) : Diagnostic.ShownIn files (.note none message) :=
  .inl ⟨rfl, rfl⟩

/-- A problem with an error in the text, and with notes that have no location. -/
theorem shownIn_of_notes (hf : f ∈ files) {span : Span} (h : span.InText f.content)
    (message : String) (notes : Option Diagnostic) (hnotes : ∀ d ∈ notes, d.ShownIn files) :
    ∀ d ∈ Diagnostic.error (some (f.locate span)) message :: notes.toList, d.ShownIn files := by
  refine List.forall_mem_cons.2 ⟨shownIn_of_inText hf h _ _, fun d hd => ?_⟩
  exact hnotes d (Option.mem_toList.1 hd)

/-- What is wrong with a file that cannot be read stands in it. -/
theorem shownIn_of_readDeclarations (hf : f ∈ files) {p : Problem}
    (h : readDeclarations f.content = .error p) : ∀ d ∈ p.diagnostics f, d.ShownIn files := by
  unfold readDeclarations at h
  cases hlex : lex f.content with
  | error e =>
    rw [hlex] at h
    cases h
    refine shownIn_of_notes hf (inText_of_lex_error hlex) _ _ fun d hd => ?_
    obtain ⟨c, -, rfl⟩ := Option.map_eq_some_iff.1 hd
    exact shownIn_note _
  | ok ts =>
    rw [hlex] at h
    cases hparse : parse ts with
    | ok ds =>
      simp only [hparse] at h
      cases h
    | error e =>
      simp only [hparse] at h
      cases h
      refine shownIn_of_notes hf (inText_of_parse_error hlex hparse) _ _ fun d hd => ?_
      obtain ⟨n, -, rfl⟩ := Option.map_eq_some_iff.1 hd
      exact shownIn_note _

theorem shownIn_duplicate (hf : f ∈ files) {d first : Declaration} (hd : d ∈ declarations f)
    (hfirst : first ∈ declarations f) :
    ∀ x ∈ (Problem.duplicate d first).diagnostics f, x.ShownIn files := by
  refine List.forall_mem_cons.2 ⟨shownIn_of_inText hf (inText_of_declarations hd).name _ _, ?_⟩
  exact List.forall_mem_singleton.2
    (shownIn_of_inText hf (inText_of_declarations hfirst).whole _ _)

end Shown

/-! ## What holds at every call -/

/-- Files were given these definitions, some of which are of other files. -/
abbrev Misplacing : Type := SourceFile → List Definition → Prop

/-- The result has declarations of the files, and those of a file are its own, or were given. -/
def Placed (G : Misplacing) (files : List SourceFile) : (r : Request) → r.Output → Prop
  | .parseModule f, ds? => ∀ ds ∈ ds?,
    (∀ d ∈ ds, Session.Declared files d) ∧ ((∀ d ∈ ds, d.file = f) ∨ G f ds)
  | .lookup .., d? => ∀ d ∈ d?, Session.Declared files d
  | _, _ => True

/-- The diagnostic is about a name that definitions have twice that were given to a file. -/
def Strays (G : Misplacing) (files : List SourceFile) (x : Diagnostic) : Prop :=
  ∃ f ∈ files, ∃ ds, G f ds ∧ ∃ d ∈ ds, ∃ first ∈ ds, Session.Declared files d ∧
    Session.Declared files first ∧ first ≠ d ∧ first.name = d.name ∧
    x ∈ (Problem.duplicate d.declaration first.declaration).diagnostics f

/-- What is served of a file is declared in it or was given, and what is reported can be shown or
strays. -/
structure Legible (G : Misplacing) (files : List SourceFile) (s : State family) : Prop where
  served : ∀ r out, s.served? r = some out → Placed G files r out
  told : ∀ x ∈ s.diagnostics, x.ShownIn files ∨ Strays G files x

/-- The request is about one of the files, and for a value only of what the file declares. -/
structure Sited (files : List SourceFile) (r : Request) : Prop where
  file : r.file ∈ files
  value : ∀ d, r = .value d → d.declaration ∈ declarations d.file

section

variable {G : Misplacing} {files : List SourceFile} {f : SourceFile} {s s' : State family}

theorem Placed.gives {r : Request} {out : Request.Output r} (h : Placed G files r out) :
    Session.Gives (Session.Declared files) r out := by
  cases r with
  | parseModule f => exact fun ds hds => (h ds hds).1
  | lookup f name => exact h
  | value | check | emit => trivial

theorem Legible.stocked (h : Legible G files s) : Stocked (fun d => d.file ∈ files) s := by
  intro r out hr
  have hgives := (h.served r out hr).gives
  cases r with
  | parseModule f => exact fun ds hds d hd => (hgives ds hds d hd).1
  | lookup f name => exact fun d hd => (hgives d hd).1
  | value | check | emit => trivial

theorem Legible.congr (h : Legible G files s) (hserved : ∀ q, s'.served? q = s.served? q)
    (hdiagnostics : s'.diagnostics = s.diagnostics) : Legible G files s' where
  served r out hr := h.served r out ((hserved r).symm.trans hr)
  told d hd := h.told d (by rwa [hdiagnostics] at hd)

theorem Legible.reported (h : Legible G files s) (hserved : ∀ q, s'.served? q = s.served? q)
    {ds : List Diagnostic} (hdiagnostics : s'.diagnostics = s.diagnostics ++ ds)
    (hds : ∀ d ∈ ds, d.ShownIn files ∨ Strays G files d) : Legible G files s' where
  served r out hr := h.served r out ((hserved r).symm.trans hr)
  told d hd := by
    rw [hdiagnostics] at hd
    rcases List.mem_append.1 hd with hd | hd
    · exact h.told d hd
    · exact hds d hd

theorem Legible.leaves (h : Legible G files s) {r : Request} {out : Request.Output r}
    (hplaced : Placed G files r out) (hout : Leaves rules r out s s') :
    Legible G files s' where
  served q v hv := by
    by_cases hq : q = r
    · subst hq
      rw [hout.served?_self lawful hv]
      exact hplaced
    · exact h.served q v ((hout.served?_of_ne lawful hq).symm.trans hv)
  told d hd := h.told d (by rwa [hout.diagnostics] at hd)

theorem sited_of_file (hf : f ∈ files) {r : Request} (hr : r.file = f) (hv : r.value? = none) :
    Sited files r := by
  refine ⟨hr ▸ hf, ?_⟩
  rintro d rfl
  cases hv

theorem sited_value {d : Definition} (hd : Session.Declared files d) :
    Sited files (.value d) := by
  refine ⟨hd.1, ?_⟩
  rintro _ ⟨⟩
  exact hd.2

theorem Sited.shownIn {d : Definition} (h : Sited files (.value d)) (severity : Severity)
    (message : String) :
    Diagnostic.ShownIn files ⟨severity, family.location (.value d), message⟩ :=
  shownIn_of_inText h.file (inText_of_declarations (h.value d rfl)).name severity message

/-- What strays is in one of the files all the same, and is not empty. -/
theorem Strays.known {x : Diagnostic} (h : Strays G files x) : x.KnownIn files := by
  obtain ⟨f, hf, ds, -, d, -, first, -, hd, hfirst, -, -, hx⟩ := h
  rcases List.mem_pair.1 hx with rfl | rfl
  · exact .inr ⟨_, rfl, f, hf, rfl, (inText_of_declarations hd.2).name.nonempty⟩
  · exact .inr ⟨_, rfl, f, hf, rfl, (inText_of_declarations hfirst.2).whole.nonempty⟩

theorem Legible.known (h : Legible G files s) : ∀ x ∈ s.diagnostics, x.KnownIn files :=
  fun x hx => (h.told x hx).elim Diagnostic.Located.known Strays.known

/-- Two definitions of one name are reported in the file, which can be shown if they are of it. -/
theorem told_duplicate (hf : f ∈ files) {all : List Definition}
    (hall : ∀ d ∈ all, Session.Declared files d)
    (hplaced : (∀ d ∈ all, d.file = f) ∨ G f all) {d first : Definition} (hd : d ∈ all)
    (hfirst : (Definition.find? all d.name).filter (fun first => first ≠ d) = some first) :
    ∀ x ∈ (Problem.duplicate d.declaration first.declaration).diagnostics f,
      x.ShownIn files ∨ Strays G files x := by
  obtain ⟨hfind, hne⟩ := Option.filter_eq_some_iff.1 hfirst
  have hmem : first ∈ all := List.mem_of_find?_eq_some hfind
  intro x hx
  rcases hplaced with hown | hgiven
  · refine .inl (shownIn_duplicate hf ?_ ?_ x hx)
    · rw [← hown d hd]
      exact (hall d hd).2
    · rw [← hown first hmem]
      exact (hall first hmem).2
  · exact .inr ⟨f, hf, all, hgiven, d, hd, first, hmem, hall d hd, hall first hmem,
      of_decide_eq_true hne, by simpa using List.find?_some hfind, hx⟩

end

/-! ## Cycles -/

/-- What is reported of a request that depends on itself points at names of definitions. -/
theorem shownIn_cycleReport {files : List SourceFile} {stack : List Request} {r : Request}
    (hlinked : Linked Below stack r) (hr : r ∈ stack) (hstack : ∀ q ∈ stack, Sited files q) :
    ∀ d ∈ Eval.cycleReport (F := family) stack r, d.ShownIn files := by
  refine List.forall_mem_cons.2 ⟨?_, fun d hd => ?_⟩
  · obtain ⟨d, rfl⟩ := value_of_leads (hlinked.leads hr)
    exact (hstack _ hr).shownIn _ _
  · obtain ⟨q, hq, rfl⟩ := List.mem_map.1 hd
    have hmem : q ∈ stack := (List.takeWhile_sublist _).subset hq
    -- the request leads to those above it, and these lead to it
    obtain ⟨d, rfl⟩ := value_of_leads ((hlinked.leads hmem).trans (hlinked.leads_above hr hq))
    exact (hstack _ hmem).shownIn _ _

/-! ## Bodies -/

/-- The answer has declarations of the files in their places. -/
abbrev Pointed (G : Misplacing) (files : List SourceFile) (r : Request) (o : Outcome family r)
    (s : State family) : Prop :=
  Legible G files s ∧ ∀ out, o = .ok out → Placed G files r out

/-- The task asks for what is declared and reports what can be shown or strays, if the requests that
it asks for are answered with what is declared. -/
abbrev Points {α : Type} (G : Misplacing) (files : List SourceFile) (stack : List Request)
    (t : Task family α) (s : State family) (Q : α → Prop) : Prop :=
  t.Safe (fun q s => (∀ p ∈ q :: stack, Sited files p) ∧ Legible G files s)
    (fun q _ o s' => Pointed G files q o s') stack s fun a s' => Legible G files s' ∧ Q a

section Points

variable {α : Type} {G : Misplacing} {files : List SourceFile} {stack : List Request}
  (hstack : ∀ p ∈ stack, Sited files p) {f : SourceFile} (hf : f ∈ files) {s : State family}

theorem points_say (hs : Legible G files s) (level : LogLevel) (text : String) :
    Points G files stack (Task.say level text) s fun _ => True :=
  ⟨hs.congr (Still.log s level text).served? rfl, trivial⟩

theorem points_report (hs : Legible G files s) {p : Problem}
    (hp : ∀ d ∈ p.diagnostics f, d.ShownIn files ∨ Strays G files d) :
    Points G files stack (reportProblem f p) s fun _ => True :=
  (Task.safe_reportAll _).mono fun _ _ h => ⟨hs.reported h.1.served? h.2 hp, trivial⟩

include hstack

theorem points_evaluateD {q : Request} (hq : Sited files q) {d : Request.Output q}
    (hd : Placed G files q d) (hs : Legible G files s) :
    Points G files stack (Task.evaluateD (F := family) q d) s (Placed G files q) := by
  refine ⟨⟨List.forall_mem_cons.2 ⟨hq, hstack⟩, hs⟩, ?_⟩
  rintro o s' ⟨hs', ho⟩
  cases o with
  | ok out => exact ⟨hs', ho out rfl⟩
  | error c => exact ⟨hs', hd⟩

theorem points_value {d : Definition} (hd : Sited files (.value d)) (hs : Legible G files s) :
    Points G files stack (Task.evaluateD (F := family) (.value d) none) s fun _ => True :=
  (points_evaluateD hstack hd trivial hs).mono fun _ _ h => ⟨h.1, trivial⟩

include hf

omit hstack in
theorem points_parseModule (hs : Legible G files s) :
    Points G files stack (parseModule f) s (Placed G files (.parseModule f)) := by
  refine (points_say hs _ _).bind fun _ s₁ hs₁ => ?_
  cases hread : readDeclarations f.content with
  | error p =>
    have hshown := shownIn_of_readDeclarations hf hread
    refine (points_report hs₁.1 fun d hd => .inl (hshown d hd)).bind fun _ s₂ hs₂ => ?_
    exact ⟨hs₂.1, by simp [Placed]⟩
  | ok ds =>
    refine ⟨hs₁.1.congr (fun _ => rfl) rfl, ?_⟩
    rintro _ ⟨⟩
    refine ⟨fun d hd => ?_, .inl (by simp)⟩
    obtain ⟨decl, hdecl, rfl⟩ := List.mem_map.1 hd
    exact ⟨hf, by rwa [declarations_eq (declarations?_of_ok hread)]⟩

theorem points_lookup (name : String) (hs : Legible G files s) :
    Points G files stack (lookup f name) s (Placed G files (.lookup f name)) := by
  have hparse : Sited files (.parseModule f) := sited_of_file hf rfl rfl
  refine (points_evaluateD hstack hparse (by simp [Placed]) hs).bind ?_
  rintro ds? s₁ ⟨hs₁, hds⟩
  refine ⟨hs₁, fun d hd => ?_⟩
  obtain ⟨ds, rfl, hfind⟩ := Option.mem_bind_iff.1 hd
  exact (hds ds rfl).1 d (List.mem_of_find?_eq_some hfind)

omit hstack in
theorem points_settle {span : Span} (hspan : span.InText f.content) (m : Int)
    (hs : Legible G files s) : Points G files stack (settle f span m) s fun _ => True := by
  unfold settle
  cases fitting m with
  | some w => exact ⟨hs, trivial⟩
  | none =>
    have hshown : ∀ d ∈ (Problem.overflow span).diagnostics f,
        d.ShownIn files ∨ Strays G files d :=
      List.forall_mem_singleton.2 (.inl (shownIn_of_inText hf hspan _ _))
    exact (points_report hs hshown).bind fun _ _ h => h

theorem points_fold (e : Expr) (he : ∀ c ∈ e.nodes, c.span.InText f.content)
    (hs : Legible G files s) : Points G files stack (fold f e) s fun _ => True := by
  induction e generalizing s with
  | integer v span => exact ⟨hs, trivial⟩
  | name m span =>
    have hlookup : Sited files (.lookup f m) := sited_of_file hf rfl rfl
    refine (points_evaluateD hstack hlookup (by simp [Placed]) hs).bind ?_
    rintro d? s₁ ⟨hs₁, hd⟩
    cases d? with
    | none =>
      have hshown : ∀ d ∈ (Problem.unknownName m span).diagnostics f,
          d.ShownIn files ∨ Strays G files d :=
        List.forall_mem_singleton.2 (.inl (shownIn_of_inText hf (he _ List.mem_cons_self) _ _))
      exact (points_report hs₁ hshown).bind fun _ _ h => h
    | some d => exact points_value hstack (sited_value (hd d rfl)) hs₁
  | negate e span ih =>
    obtain ⟨hspan, hoperand⟩ := List.forall_mem_cons.1 he
    refine (ih hoperand hs).bind ?_
    rintro v? s₁ ⟨hs₁, -⟩
    cases v? with
    | none => exact ⟨hs₁, trivial⟩
    | some v => exact points_settle hf hspan (-v) hs₁
  | binary op l r span ihl ihr =>
    obtain ⟨hspan, hoperands⟩ := List.forall_mem_cons.1 he
    obtain ⟨hl, hr⟩ := List.forall_mem_append.1 hoperands
    refine (ihl hl hs).bind ?_
    rintro a? s₁ ⟨hs₁, -⟩
    refine (ihr hr hs₁).bind ?_
    rintro b? s₂ ⟨hs₂, -⟩
    cases a? with
    | none => exact ⟨hs₂, trivial⟩
    | some a =>
      cases b? with
      | none => exact ⟨hs₂, trivial⟩
      | some b => exact points_settle hf hspan (op.apply a b) hs₂

theorem points_checkAll {all : List Definition} (hall : ∀ d ∈ all, Session.Declared files d)
    (hplaced : (∀ d ∈ all, d.file = f) ∨ G f all) (ds : List Definition) (hds : ∀ d ∈ ds, d ∈ all)
    (hs : Legible G files s) : Points G files stack (checkAll f all ds) s fun _ => True := by
  induction ds generalizing s with
  | nil => exact ⟨hs, trivial⟩
  | cons d ds ih =>
    obtain ⟨hd, hrest⟩ := List.forall_mem_cons.1 hds
    rw [checkAll]
    cases hfirst : (Definition.find? all d.name).filter fun first => first ≠ d with
    | some first =>
      refine (points_report hs (told_duplicate hf hall hplaced hd hfirst)).bind ?_
      exact fun _ s₁ hs₁ => (ih hrest hs₁.1).bind fun _ _ h => h
    | none =>
      refine (points_value hstack (sited_value (hall d hd)) hs).bind ?_
      exact fun _ s₁ hs₁ => (ih hrest hs₁.1).bind fun _ _ h => h

theorem points_check (hs : Legible G files s) : Points G files stack (check f) s fun _ => True := by
  have hparse : Sited files (.parseModule f) := sited_of_file hf rfl rfl
  refine (points_say hs _ _).bind fun _ s₁ hs₁ => ?_
  refine (points_evaluateD hstack hparse (by simp [Placed]) hs₁.1).bind ?_
  rintro ds? s₂ ⟨hs₂, hds⟩
  cases ds? with
  | none => exact ⟨hs₂, trivial⟩
  | some ds =>
    obtain ⟨hall, hplaced⟩ := hds ds rfl
    exact points_checkAll hstack hf hall hplaced ds (fun _ hd => hd) hs₂

omit hf in
theorem points_emitAll (ds : List Definition) (hds : ∀ d ∈ ds, Session.Declared files d)
    (hs : Legible G files s) : Points G files stack (emitAll ds) s fun _ => True := by
  induction ds generalizing s with
  | nil => exact ⟨hs, trivial⟩
  | cons d ds ih =>
    obtain ⟨hd, hrest⟩ := List.forall_mem_cons.1 hds
    refine (points_value hstack (sited_value hd) hs).bind ?_
    rintro v? s₁ ⟨hs₁, -⟩
    cases v? with
    | none => exact ⟨hs₁, trivial⟩
    | some v => exact (ih hrest hs₁).bind fun _ _ h => h

theorem points_emit (hs : Legible G files s) : Points G files stack (emit f) s fun _ => True := by
  have hcheck : Sited files (.check f) := sited_of_file hf rfl rfl
  have hparse : Sited files (.parseModule f) := sited_of_file hf rfl rfl
  refine ⟨⟨List.forall_mem_cons.2 ⟨hcheck, hstack⟩, hs⟩, ?_⟩
  rintro ok s₁ ⟨hs₁, -⟩
  refine ⟨⟨List.forall_mem_cons.2 ⟨hparse, hstack⟩, hs₁⟩, ?_⟩
  rintro ds? s₂ ⟨hs₂, hds⟩
  cases ok with
  | error c => exact ⟨hs₂, trivial⟩
  | ok ok =>
    cases ok with
    | false => exact ⟨hs₂, trivial⟩
    | true =>
      cases ds? with
      | error c => exact ⟨hs₂, trivial⟩
      | ok ds? =>
        cases ds? with
        | none => exact ⟨hs₂, trivial⟩
        | some ds => exact (points_emitAll hstack ds (hds _ rfl ds rfl).1 hs₂).bind fun _ _ h => h

omit hf

/-- Every body points into the files. -/
theorem points_body {r : Request} (hr : Sited files r) (hs : Legible G files s) :
    Points G files stack (rules.body r) s (Placed G files r) := by
  cases r with
  | parseModule f => exact points_parseModule hr.file hs
  | lookup f name => exact points_lookup hstack hr.file name hs
  | value d =>
    refine (points_say hs _ _).bind fun _ s₁ hs₁ => ?_
    have hnodes := (inText_of_declarations (hr.value d rfl)).nodes
    exact points_fold (f := d.file) hstack hr.file _ hnodes hs₁.1
  | check f => exact points_check hstack hr.file hs
  | emit f => exact points_emit hstack hr.file hs

end Points

/-! ## Every evaluation -/

/-- Every evaluation points into the files. -/
def pointing (G : Misplacing) (limit : Nat) (fs files : List SourceFile) :
    Layer (enduring limit fs) where
  before stack r s := (∀ q ∈ r :: stack, Sited files q) ∧ Legible G files s
  after _ r _ o s' := Pointed G files r o s'
  cycle := fun {n stack r s s'} hb hs hr hc => by
    obtain ⟨hsited, hlegible⟩ := hs
    have hshown := shownIn_cycleReport hb.1.linked hr (List.forall_mem_cons.1 hsited).2
    refine ⟨hlegible.reported hc.served? hc.diagnostics fun d hd => .inl (hshown d hd), ?_⟩
    rintro out ⟨⟩
  hit := fun {n stack r s out s'} _ hs _ hout hserves => by
    refine ⟨hs.2.congr (hserves.served? lawful) hserves.diagnostics, ?_⟩
    rintro _ ⟨⟩
    exact hs.2.served r out hout
  body := fun {n stack r s s₁} _ hs _ _ hin => by
    obtain ⟨hsited, hlegible⟩ := hs
    have hs₁ : Legible G files s₁ := hlegible.congr hin.served? hin.diagnostics
    have hr : Sited files r := hsited r List.mem_cons_self
    refine ((points_body hsited hr hs₁).of_after fun _ _ _ _ h => h.2.2).mono ?_
    rintro out s₂ ⟨hs₂, hplaced⟩ s' hout
    refine ⟨hs₂.leaves hplaced hout, ?_⟩
    rintro _ ⟨⟩
    exact hplaced

end Demand.Compiler
