import Demand.Proofs.Compiler.References
import Demand.Proofs.Compiler.Session

/-!
# What is filed under a file

After any steps that give no results, the references filed under a file are none until its check was
evaluated, from outside or for its code, and then exactly what the file refers to
(`Session.references_eq_names`). Nothing else is ever filed: only checks file, a check is asked for
only from outside and for code, and each time what is recorded for it is what its file refers to.
-/

namespace Demand.Compiler

open Demand.Language

/-! ## One evaluation -/

section Evaluation

variable {files : List SourceFile} {r : Request} {s s₀ s' : State family} {o : Outcome family r}
  {c : Call family} {f : SourceFile}

theorem filedUnder_iff {q : Request} {id : FileId} :
    family.FiledUnder q id ↔ ∃ f, q = .check f ∧ f.id = id := by
  cases q with
  | check f => simp [Family.FiledUnder, Family.policyOf, Request.kind, Kind.policy,
      Request.sourceFile]
  | parseModule | lookup | value | emit =>
    simp [Family.FiledUnder, Family.policyOf, Request.kind, Kind.policy]

/-- The bounds of the records hold at every call within an evaluation. -/
theorem collecting_before (hr : r.file ∈ files) (hs : Sits [] s) (hrec : Recorded s)
    (hc : rules.Within ⟨depth files s₀, [], r, s⟩ c) :
    (collecting (files.foldr (fun f n => f.content.length + n) 0)).discipline.Before c :=
  (collecting _).discipline.within lawful hc ⟨⟨room_start hr s₀, hs.single r⟩, hrec⟩

/-- Wherever a check is asked for, what its file refers to is recorded for it afterwards. -/
theorem answer_check (hr : r.file ∈ files) (hs : Sits [] s) (hrec : Recorded s)
    (hc : rules.Within ⟨depth files s₀, [], r, s⟩ c) (hf : c.request = .check f) :
    c.request ∉ c.stack ∧ ∃ o s', rules.answer c = .ok o s' ∧
      ∀ ref, s'.Records c.request ref ↔ FileRefers f ref := by
  have hbefore := collecting_before hr hs hrec hc
  obtain ⟨n, stack, q, s₁⟩ := c
  obtain rfl : q = .check f := hf
  have hinactive : Request.check f ∉ stack := by
    intro hmem
    obtain ⟨d, hd, -⟩ := cyclic_value (hbefore.1.1.linked.leads hmem)
    cases hd
  obtain ⟨o, s', ho, hanswers, -, hwrites⟩ :=
    ((collecting _).discipline.ends lawful n stack _ s₁ hbefore).exists_ok
  refine ⟨hinactive, o, s', ho, ?_⟩
  cases o with
  | error e => exact absurd (hanswers.error_iff.1 ⟨e, rfl⟩) hinactive
  | ok ok => exact hwrites.recorded.check_iff (hanswers.kept ok rfl rfl)

/-- Checks are asked for from outside and for code only. -/
theorem eq_of_within_check (hr : r.file ∈ files) (hs : Sits [] s) (hrec : Recorded s)
    (hc : rules.Within ⟨depth files s₀, [], r, s⟩ c) (hf : c.request = .check f) :
    r = .check f ∨ r = .emit f := by
  have hbefore := collecting_before hr hs hrec hc
  rcases hc.mem_stack with rfl | hmem
  · exact .inl hf
  · have hleads := hbefore.1.1.linked.leads hmem
    rw [hf] at hleads
    have hrank := rank_lt_of_leads hleads
    have hfile := file_of_leads hleads
    cases r with
    | emit g =>
      obtain rfl : f = g := hfile
      exact .inr rfl
    | parseModule | lookup | value | check =>
      simp only [Request.rank] at hrank
      omega

/-- The code of a file asks for its check first. -/
theorem exists_within_check (hr : r = .check f ∨ r = .emit f) {n : Nat}
    (h : rules.evaluate n [] r s = .ok o s') :
    ∃ c, rules.Within ⟨n, [], r, s⟩ c ∧ c.request = .check f := by
  rcases hr with rfl | rfl
  · exact ⟨_, .refl, rfl⟩
  · cases n with
    | zero => cases h
    | succ n =>
      rcases Rules.evaluate_cases h with ⟨hmem, -⟩ | ⟨-, out, hl, -⟩ |
        ⟨hmem, hl, s₁, out, s₂, hbegin, -⟩
      · cases hmem
      · cases hl
      · exact ⟨⟨n, [.emit f], .check f, s₁⟩, .single (.intro hmem hl hbegin (.inl ⟨rfl, rfl⟩)), rfl⟩

/-- An evaluation files what the file refers to, if it is a check or for code, and else nothing. -/
theorem mem_filed_of_evaluate (hr : r.file ∈ files) (hs : Sits [] s) (hrec : Recorded s)
    (h : Compiler.evaluate files r s = .ok o s') (id : FileId) (ref : Reference) :
    ref ∈ s'.recorder.filed id ↔ ref ∈ s.recorder.filed id ∨
      ∃ f, f.id = id ∧ (r = .check f ∨ r = .emit f) ∧ FileRefers f ref := by
  have heval : rules.evaluate (depth files s) [] r s = .ok o s' := h
  rw [Rules.filed_evaluate heval]
  refine or_congr_right ⟨?_, ?_⟩
  · rintro ⟨c, hc, -, hunder, o', s₁, ho, hrecords⟩
    obtain ⟨f, hf, hid⟩ := filedUnder_iff.1 hunder
    obtain ⟨-, o'', s₂, ho', hrefers⟩ := answer_check hr hs hrec hc hf
    rw [ho] at ho'
    cases ho'
    exact ⟨f, hid, eq_of_within_check hr hs hrec hc hf, (hrefers ref).1 hrecords⟩
  · rintro ⟨f, hid, hrf, href⟩
    obtain ⟨c, hc, hf⟩ := exists_within_check hrf heval
    obtain ⟨hinactive, o', s₁, ho, hrefers⟩ := answer_check hr hs hrec hc hf
    exact ⟨c, hc, hinactive, filedUnder_iff.2 ⟨f, hf, hid⟩, o', s₁, ho, (hrefers ref).2 href⟩

theorem recorded_of_evaluate (hr : r.file ∈ files) (hs : Sits [] s) (hrec : Recorded s)
    (h : Compiler.evaluate files r s = .ok o s') : Recorded s' := by
  have hself : rules.Within ⟨depth files s, [], r, s⟩ ⟨depth files s, [], r, s⟩ := .refl
  have hbefore := collecting_before hr hs hrec hself
  have hwrites := ((collecting _).discipline.ends lawful _ [] r s hbefore).of_ok h
  cases o with
  | ok out => exact hwrites.2.2.recorded
  | error e => exact hwrites.2.2.recorded

end Evaluation

/-! ## Sessions -/

/-- What is filed: for the files that were checked what they refer to, and nothing else. -/
structure Filed (checked : SourceFile → Prop) (s : State family) : Prop where
  recorded : Recorded s
  mem_filed : ∀ id ref, ref ∈ s.recorder.filed id ↔
    ∃ f, f.id = id ∧ checked f ∧ FileRefers f ref

namespace Filed

variable {checked checked' : SourceFile → Prop} {s s' : State family}

theorem congr (h : Filed checked s) (hiff : ∀ f, checked f ↔ checked' f) : Filed checked' s := by
  refine ⟨h.recorded, fun id ref => (h.mem_filed id ref).trans ?_⟩
  simp only [hiff]

theorem quiet (h : Filed checked s) (hq : Quiet s s') : Filed checked s' := by
  refine hq.keeps (fun c s s' hc he h => ?_) h
  refine ⟨h.recorded.effect hc he, fun id ref => ?_⟩
  rw [he.filed]
  exact h.mem_filed id ref

theorem evaluate (h : Filed checked s) {files : List SourceFile} {r : Request}
    {o : Outcome family r} (hr : r.file ∈ files) (hs : Sits [] s)
    (heval : Compiler.evaluate files r s = .ok o s') :
    Filed (fun f => checked f ∨ r = .check f ∨ r = .emit f) s' := by
  refine ⟨recorded_of_evaluate hr hs h.recorded heval, fun id ref => ?_⟩
  rw [mem_filed_of_evaluate hr hs h.recorded heval, h.mem_filed, ← exists_or]
  refine exists_congr fun f => ?_
  rw [← and_or_left, ← or_and_right]

theorem evaluated (h : Filed checked s) {files : List SourceFile} {rs : List Request}
    (hrs : ∀ r ∈ rs, r.file ∈ files) (hs : Sits [] s) (heval : Session.Evaluated files rs s s') :
    Filed (fun f => checked f ∨ .check f ∈ rs ∨ .emit f ∈ rs) s' := by
  induction heval generalizing checked with
  | nil => exact h.congr fun f => by simp
  | @cons r rs s s₁ s' o ho _ ih =>
    have hr : r.file ∈ files := hrs r List.mem_cons_self
    have hs₁ : Sits [] s₁ := ((ends_evaluate hr hs).of_ok ho).1
    refine (ih (h.evaluate hr hs ho) (fun q hq => hrs q (List.mem_cons_of_mem r hq)) hs₁).congr ?_
    intro f
    rw [List.mem_cons, List.mem_cons, eq_comm (a := r), eq_comm (a := r)]
    tauto

end Filed

/-- The step evaluates the check of the file with this number, or its code. -/
def Step.Checks (i : Nat) : Step → Prop
  | evaluate (.check j) | evaluate (.emit j) | evaluateD (.check j _) | evaluateD (.emit j _)
  | both j => j = i
  | _ => False

namespace Session

variable {files : List SourceFile} {s : Session}

/-- A step that asks for a check or for code names the file. -/
theorem asked_iff_checks (h : Sound files s) (st : Step) (f : SourceFile) :
    (.check f ∈ s.asked st ∨ .emit f ∈ s.asked st) ↔ ∃ i, files[i]? = some f ∧ st.Checks i := by
  rw [← h.files_eq]
  cases st with
  | evaluate q => cases q <;> simp [asked, request?, Step.Checks, file?]
  | evaluateD g => cases g <;> simp [asked, given?, Step.Checks, file?, Option.bind_eq_some_iff]
  | both j => simp [asked, Step.Checks, file?]
  | _ => simp [asked, Step.Checks]

/-- One step files what the files refer to that it checks. -/
theorem Sound.step_filed (h : Sound files s) {checked : SourceFile → Prop}
    (hfiled : Filed checked s.state) {st : Step} (hst : ¬ st.IsPut) :
    Filed (fun f => checked f ∨ ∃ i, files[i]? = some f ∧ st.Checks i) (s.step st).2.state := by
  obtain ⟨s₁, hquiet, heval⟩ := h.step_evaluated hst
  have hs₁ : Sits [] s₁ := h.sits.quiet hquiet
  refine ((hfiled.quiet hquiet).evaluated (fun r hr => h.mem_of_asked hr) hs₁ heval).congr ?_
  exact fun f => or_congr_right (asked_iff_checks h st f)

theorem Sound.after_filed (h : Sound files s) {checked : SourceFile → Prop}
    (hfiled : Filed checked s.state) {steps : List Step} (hsteps : ∀ st ∈ steps, ¬ st.IsPut) :
    Filed (fun f => checked f ∨ ∃ st ∈ steps, ∃ i, files[i]? = some f ∧ st.Checks i)
      (s.after steps).state := by
  induction steps generalizing s checked with
  | nil => exact hfiled.congr fun f => by simp
  | cons st steps ih =>
    have hst := hsteps st List.mem_cons_self
    refine (ih (h.step hst) (h.step_filed hfiled hst) fun st' hst' =>
      hsteps st' (List.mem_cons_of_mem st hst')).congr fun f => ?_
    rw [List.exists_mem_cons_iff, or_assoc]

theorem start_filed (files : List SourceFile) (options : Options) :
    Filed (fun _ => False) (start files options true).state := by
  constructor
  case recorded =>
    intro r out hr
    rw [start_served?] at hr
    cases hr
  case mem_filed =>
    intro id ref
    have hnone : (start files options true).state.recorder.filed id = [] := rfl
    simp [hnone]

/-- The references that are answered are those that are filed. -/
theorem step_references (s : Session) (id : FileId) :
    (s.step (.references id)).1.result =
      .ok (.reply (.references (Reference.sort (s.state.recorder.filed id)))) :=
  rfl

theorem id_of_number {sources : List (String × String)} {i : Nat} {f : SourceFile}
    (h : (SourceFile.number sources)[i]? = some f) : f.id = ⟨i⟩ := by
  rw [SourceFile.number, List.getElem?_mapIdx] at h
  obtain ⟨source, -, rfl⟩ := Option.map_eq_some_iff.1 h
  rfl

/-- After any steps that give no results, the references of a file are none, if it cannot be read or
neither its check nor its code was evaluated, and else exactly the names, declared or not, in the
values of its declarations that are the first of their names. It does not matter in which order
values were asked for, where cycles were found, and what was dropped and read again. -/
theorem references_eq_names (sources : List (String × String)) (options : Options)
    (steps : List Step) (hsteps : ∀ st ∈ steps, ¬ st.IsPut) (i : Nat) :
    ∃ refs, (((start (SourceFile.number sources) options true).after steps).step
        (.references ⟨i⟩)).1.result = .ok (.reply (.references refs)) ∧
      ∀ ref, ref ∈ refs ↔ (∃ st ∈ steps, st.Checks i) ∧
        ∃ f ds, (SourceFile.number sources)[i]? = some f ∧ declarations? f = some ds ∧
          ∃ d ∈ ds, findDeclaration ds d.name = some d ∧
            ∃ n ∈ names d.value, ref = .topLevel n := by
  have hfiled := (start_sound (SourceFile.number sources) options).after_filed
    (start_filed (SourceFile.number sources) options) hsteps
  refine ⟨_, step_references _ ⟨i⟩, fun ref => ?_⟩
  rw [Reference.sort, List.mem_mergeSort, hfiled.mem_filed]
  constructor
  · rintro ⟨f, hid, hchecked, href⟩
    obtain ⟨st, hst, j, hf, hchecks⟩ := hchecked.resolve_left id
    -- the number of a file is its place
    obtain rfl : j = i := congrArg FileId.index ((id_of_number hf).symm.trans hid)
    obtain ⟨ds, hds, hd⟩ := fileRefers_iff.1 href
    exact ⟨⟨st, hst, hchecks⟩, f, ds, hf, hds, hd⟩
  · rintro ⟨⟨st, hst, hchecks⟩, f, ds, hf, hds, hd⟩
    exact ⟨f, id_of_number hf, .inr ⟨st, hst, i, hf, hchecks⟩, fileRefers_iff.2 ⟨ds, hds, hd⟩⟩

/-- A file in which the values of `a` and `b` need each other, `a` is declared twice and `q` not at
all, and one that cannot be read. -/
def tangled : List (String × String) :=
  [("one", "let a = b + q; let b = -a; let a = z; let c = a * w;"), ("two", "let x = ;")]

/-- Steps that ask for a value on the cycle first, so that the other is cut short, and check the
file when the name was dropped at which the cycle closes. -/
def tangledSteps : List Step :=
  [.hold 0, .evaluate (.value 1), .evaluate (.check 1), .clear (.lookup 0 "b"),
    .evaluateD (.emit 0 none), .clearCache]

example :
    ((start (SourceFile.number tangled) {} true).after tangledSteps).state.recorder.filed ⟨0⟩ =
      [.topLevel "b", .topLevel "q", .topLevel "a", .topLevel "w"] := by
  decide +kernel

/-- What is filed under the first file after it was asked for code. -/
theorem references_eq_names_tangled :
    ∃ refs f ds, (((start (SourceFile.number tangled) {} true).after tangledSteps).step
        (.references ⟨0⟩)).1.result = .ok (.reply (.references refs)) ∧
      (SourceFile.number tangled)[0]? = some f ∧ declarations? f = some ds ∧
      ∀ ref, ref ∈ refs ↔ ∃ d ∈ ds, findDeclaration ds d.name = some d ∧
        ∃ n ∈ names d.value, ref = .topLevel n := by
  have hsteps : ∀ st ∈ tangledSteps, ¬ st.IsPut := by
    simp [tangledSteps, Step.IsPut]
  have hchecks : ∃ st ∈ tangledSteps, st.Checks 0 :=
    ⟨.evaluateD (.emit 0 none), by simp [tangledSteps], rfl⟩
  have hread : ((SourceFile.number tangled)[0]?.bind declarations?).isSome := by
    decide +kernel
  obtain ⟨ds, hds⟩ := Option.isSome_iff_exists.1 hread
  obtain ⟨f, hf, hds⟩ := Option.bind_eq_some_iff.1 hds
  obtain ⟨refs, hresult, hrefs⟩ := references_eq_names tangled {} tangledSteps hsteps 0
  refine ⟨refs, f, ds, hresult, hf, hds, fun ref => (hrefs ref).trans ⟨?_, ?_⟩⟩
  · rintro ⟨-, f', ds', hf', hds', hd⟩
    rw [hf] at hf'
    cases hf'
    rw [hds] at hds'
    cases hds'
    exact hd
  · exact fun hd => ⟨hchecks, f, ds, hf, hds, hd⟩

end Session

end Demand.Compiler
