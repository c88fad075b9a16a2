import Demand.Proofs.Compiler.Disclosure
import Demand.Proofs.Compiler.Filed

/-!
# A failed check explains itself

While requests are evaluated and nothing is given, dropped or drained, what was reported are genuine
findings about the files, and there is an error for everything bad that is served (`Explained`). So a
check that was evaluated failed just if an error in its file was reported, whatever else was evaluated
before it or after it (`Explained.verdict`).
-/

namespace Demand.Compiler

open Demand.Language

/-! ## One state -/

/-- What was reported are genuine findings about the files, and it tells of everything bad that is
served. -/
structure Explained (files : List SourceFile) (s : State family) : Prop where
  told : Told s
  genuine : ∃ fs : List (SourceFile × Finding),
    s.diagnostics = fs.flatMap (fun x => x.2.diagnostics x.1) ∧
      ∀ x ∈ fs, x.1 ∈ files ∧ x.2.Genuine x.1

namespace Explained

variable {files : List SourceFile} {f : SourceFile} {s s' : State family}

theorem start (hserved : ∀ r, s.served? r = none) (hnone : s.diagnostics = []) :
    Explained files s := by
  refine ⟨.start hserved, [], hnone, fun x hx => ?_⟩
  cases hx

theorem found (h : Explained files s) (hf : f ∈ files) (hfound : Found f s s') :
    Explained files s' := by
  obtain ⟨fs, hfs, hgenuine⟩ := h.genuine
  obtain ⟨new, hnew, hgenuine'⟩ := hfound.findings
  refine ⟨hfound.told, fs ++ new.map fun x => (f, x), ?_, fun x hx => ?_⟩
  · rw [hnew, hfs, List.flatMap_append, List.flatMap_map]
  · rcases List.mem_append.1 hx with hx | hx
    · exact hgenuine x hx
    · obtain ⟨y, hy, rfl⟩ := List.mem_map.1 hx
      exact ⟨hf, hgenuine' y hy⟩

/-- An error is in a file that is not valid. -/
theorem exists_invalid (h : Explained files s) {x : Diagnostic} (hx : x ∈ s.diagnostics)
    (herror : x.isError = true) :
    ∃ f ∈ files, ¬ Valid f ∧ ∃ l, x.location = some l ∧ l.file = f.id := by
  obtain ⟨fs, hfs, hgenuine⟩ := h.genuine
  rw [hfs] at hx
  obtain ⟨⟨f, y⟩, hy, hx⟩ := List.mem_flatMap.1 hx
  obtain ⟨hf, hy⟩ := hgenuine _ hy
  obtain ⟨span, message, notes, hdiagnostics, hnotes⟩ := hy.exists_diagnostics
  refine ⟨f, hf, hy.not_valid, ?_⟩
  rw [hdiagnostics] at hx
  rcases List.mem_cons.1 hx with rfl | hx
  · exact ⟨_, rfl, rfl⟩
  · -- the other reports of a finding are notes
    rw [Diagnostic.isError, hnotes x hx] at herror
    cases herror

/-- A check failed just if there is an error in its file. -/
theorem verdict (h : Explained files s) (hs : Correct s)
    (hids : ∀ f ∈ files, ∀ g ∈ files, f.id = g.id → f = g) (hf : f ∈ files) {ok : Bool}
    (hok : s.served? (.check f) = some ok) :
    ok = false ↔ ∃ x ∈ s.diagnostics, x.IsErrorIn f.id := by
  constructor
  · exact h.told.blamed (.check f) ok hok
  · rintro ⟨x, hx, herror, l, hl, hid⟩
    obtain ⟨g, hg, hinvalid, l', hl', hid'⟩ := h.exists_invalid hx herror
    obtain rfl : l = l' := Option.some.inj (hl.symm.trans hl')
    obtain rfl : g = f := hids g hg f hf (hid'.symm.trans hid)
    have hmeets : ok = true ↔ Valid g := hs _ _ hok
    rw [Bool.eq_false_iff]
    exact fun htrue => hinvalid (hmeets.1 htrue)

theorem evaluate (h : Explained files s) (hs : Sits [] s) {r : Request} (hr : r.file ∈ files)
    (hd : r.Declared) {o : Outcome family r} (heval : Compiler.evaluate files r s = .ok o s') :
    Explained files s' ∧ Sits [] s' ∧ Grows s s' ∧
      ∀ f, r = .check f ∨ r = .emit f → (s'.served? (.check f)).isSome := by
  obtain ⟨hs', hfound, hchecked⟩ := found_of_evaluate hr hs h.told hd heval
  exact ⟨h.found hr hfound, hs', hfound.grows, hchecked⟩

/-- The same for evaluations one after the other. -/
theorem evaluated (h : Explained files s) (hs : Sits [] s) {rs : List Request}
    (hrs : ∀ r ∈ rs, r.file ∈ files ∧ r.Declared) (heval : Session.Evaluated files rs s s') :
    Explained files s' ∧ Sits [] s' ∧ Grows s s' ∧
      ∀ f, .check f ∈ rs ∨ .emit f ∈ rs → (s'.served? (.check f)).isSome := by
  induction heval with
  | nil =>
    refine ⟨h, hs, fun _ _ hq => hq, ?_⟩
    rintro f (hf | hf) <;> cases hf
  | @cons r rs s s₁ s' o ho _ ih =>
    obtain ⟨hr, hd⟩ := hrs r List.mem_cons_self
    obtain ⟨h₁, hs₁, hgrows₁, hchecked₁⟩ := h.evaluate hs hr hd ho
    obtain ⟨h', hs', hgrows', hchecked'⟩ := ih h₁ hs₁ fun q hq =>
      hrs q (List.mem_cons_of_mem r hq)
    refine ⟨h', hs', fun q v hq => hgrows' q v (hgrows₁ q v hq), fun f hf => ?_⟩
    rw [List.mem_cons, List.mem_cons, or_or_or_comm] at hf
    rcases hf with hf | hf
    · exact isSome_of_grows hgrows' (hchecked₁ f (hf.imp Eq.symm Eq.symm))
    · exact hchecked' f hf

end Explained

/-! ## Sessions -/

/-- The step evaluates the check of the file with this number and gives its result. -/
def Step.GivesVerdict (i : Nat) : Step → Prop
  | evaluate (.check j) | evaluateD (.check j _) | both j => j = i
  | _ => False

/-- The result of the check of a file that comes first in a response. -/
def Response.verdict? (f : SourceFile) : Response → Option Bool
  | reply (.answers (⟨.check g, .ok ok⟩ :: _)) | output (.check g) ok =>
    if g = f then some ok else none
  | _ => none

namespace Session

variable {files : List SourceFile} {s : Session} {st : Step}

theorem not_isPut_of_isEvaluate (h : st.IsEvaluate) : ¬ st.IsPut := by
  cases st with
  | put g => exact h.elim
  | _ => exact id

theorem checks_of_givesVerdict {i : Nat} (h : st.GivesVerdict i) : st.Checks i := by
  cases st with
  | evaluate q =>
    cases q with
    | check j => exact h
    | parseModule | lookup | value | emit => exact h.elim
  | evaluateD g =>
    cases g with
    | check j ok => exact h
    | parseModule | lookup | value | emit => exact h.elim
  | both j => exact h
  | _ => exact h.elim

/-- Values that steps ask for are those of declarations. -/
theorem Sound.declared_of_asked (h : Sound files s) {r : Request} (hr : r ∈ s.asked st) :
    r.Declared := by
  rintro d rfl
  have hquery : ∀ q, s.request? q = some (.value d) → d.declaration ∈ declarations d.file := by
    intro q hq
    cases q with
    | value i =>
      obtain ⟨d', hd', heq⟩ := Option.map_eq_some_iff.1 hq
      cases heq
      exact (h.held d (List.mem_of_getElem? hd')).2
    | parseModule i | lookup i name | check i | emit i =>
      obtain ⟨f, -, heq⟩ := Option.map_eq_some_iff.1 hq
      cases heq
  cases st with
  | evaluate q => exact hquery q (Option.mem_toList.1 hr)
  | evaluateD g =>
    obtain ⟨x, hx, heq⟩ := Option.map_eq_some_iff.1 (Option.mem_toList.1 hr)
    exact hquery g.query (by rw [← heq]; exact request?_of_given? hx)
  | both i =>
    obtain ⟨f, -, hr⟩ := List.mem_flatMap.1 hr
    rcases List.mem_pair.1 hr with heq | heq <;> cases heq
  | hold i =>
    obtain ⟨f, -, heq⟩ := Option.map_eq_some_iff.1 (Option.mem_toList.1 hr)
    cases heq
  | holdLookup i name =>
    obtain ⟨f, -, heq⟩ := Option.map_eq_some_iff.1 (Option.mem_toList.1 hr)
    cases heq
  | _ => cases hr

/-- A step that evaluates keeps the explanations and what is served. -/
theorem Sound.step_explained (h : Sound files s) (hs : Explained files s.state)
    (hst : st.IsEvaluate) :
    Explained files (s.step st).2.state ∧ Grows s.state (s.step st).2.state ∧
      ∀ i f, files[i]? = some f → st.Checks i →
        ((s.step st).2.state.served? (.check f)).isSome := by
  have hstop : st.mayStop = false := by
    cases st with
    | put | register => exact hst.elim
    | _ => rfl
  obtain ⟨⟨response, held⟩, s', hact, -⟩ := (h.ends_act hstop).exists_ok
  have heval := evaluated_of_act hst hact
  rw [h.files_eq] at heval
  rw [step_of_ok hact]
  obtain ⟨hs', -, hgrows, hchecked⟩ := hs.evaluated h.sits
    (fun r hr => ⟨h.mem_of_asked hr, h.declared_of_asked hr⟩) heval
  refine ⟨hs', hgrows, fun i f hf hchecks => hchecked f ?_⟩
  exact (asked_iff_checks h st f).2 ⟨i, hf, hchecks⟩

/-- So do steps one after the other. -/
theorem Sound.after_explained (h : Sound files s) (hs : Explained files s.state)
    {steps : List Step} (hsteps : ∀ st ∈ steps, st.IsEvaluate) :
    Explained files (s.after steps).state ∧ Grows s.state (s.after steps).state ∧
      ∀ i f, files[i]? = some f → (∃ st ∈ steps, st.Checks i) →
        ((s.after steps).state.served? (.check f)).isSome := by
  induction steps generalizing s with
  | nil =>
    refine ⟨hs, fun _ _ hq => hq, ?_⟩
    rintro i f - ⟨st, hst, -⟩
    cases hst
  | cons st steps ih =>
    have hst := hsteps st List.mem_cons_self
    obtain ⟨hs₁, hgrows₁, hchecked₁⟩ := h.step_explained hs hst
    obtain ⟨hs', hgrows', hchecked'⟩ := ih (h.step (not_isPut_of_isEvaluate hst)) hs₁ fun st' h' =>
      hsteps st' (List.mem_cons_of_mem st h')
    refine ⟨hs', fun q v hq => hgrows' q v (hgrows₁ q v hq), fun i f hf hchecks => ?_⟩
    rcases (List.exists_mem_cons_iff ..).1 hchecks with hchecks | hchecks
    · exact isSome_of_grows hgrows' (hchecked₁ i f hf hchecks)
    · exact hchecked' i f hf hchecks

/-- The verdict that a step gives is whether the file is valid. -/
theorem Sound.verdict_of_step (h : Sound files s) {i : Nat} {f : SourceFile}
    (hf : files[i]? = some f) (hst : st.GivesVerdict i) :
    ∃ response ok, (s.step st).1.result = .ok response ∧ response.verdict? f = some ok ∧
      (ok = true ↔ Valid f) := by
  have hmem : f ∈ files := List.mem_of_getElem? hf
  rw [← h.files_eq] at hf
  have hfile : s.file? i = some f := hf
  cases st with
  | evaluate q =>
    cases q with
    | check j =>
      obtain rfl : j = i := hst
      have hr : s.request? (.check j) = some (.check f) := by rw [request?, hfile]; rfl
      obtain ⟨x, s', hact, ⟨ok, rfl, hmeets⟩, -⟩ := (h.ends_evaluateStep hr).exists_ok
      rw [step_of_ok hact]
      exact ⟨_, ok, rfl, if_pos rfl, hmeets⟩
    | parseModule | lookup | value | emit => exact hst.elim
  | evaluateD g =>
    cases g with
    | check j d =>
      obtain rfl : j = i := hst
      have hends : Eval.Ends (fun _ => False) (s.act (.evaluateD (.check j d))) s.state fun x _ =>
          ∃ ok, x = (.output (.check f) ok, s.held) ∧ Meets (.check f) ok := by
        rw [act, given?, hfile]
        refine (h.ends_evaluate (r := .check f) hmem h.sits).bind ?_
        rintro _ s₁ ⟨-, ok, rfl, hmeets⟩
        exact ⟨ok, rfl, hmeets⟩
      obtain ⟨_, s', hact, ok, rfl, hmeets⟩ := hends.exists_ok
      rw [step_of_ok hact]
      exact ⟨_, ok, rfl, if_pos rfl, hmeets⟩
    | parseModule | lookup | value | emit => exact hst.elim
  | both j =>
    obtain rfl : j = i := hst
    have hends : Eval.Ends (fun _ => False) (s.act (.both j)) s.state fun x _ =>
        ∃ ok code, x = (.reply (.answers [⟨.check f, .ok ok⟩, ⟨.emit f, code⟩]), s.held) ∧
          Meets (.check f) ok := by
      rw [act, hfile]
      refine (h.ends_evaluate (r := .check f) hmem h.sits).bind ?_
      rintro _ s₁ ⟨hs₁, ok, rfl, hmeets⟩
      exact (h.ends_evaluate (r := .emit f) hmem hs₁).bind fun code _ _ => ⟨ok, code, rfl, hmeets⟩
    obtain ⟨_, s', hact, ok, code, rfl, hmeets⟩ := hends.exists_ok
    rw [step_of_ok hact]
    exact ⟨_, ok, rfl, if_pos rfl, hmeets⟩
  | _ => exact hst.elim

/-- The verdict on a file is the same on a new engine. -/
theorem step_check_eq_false_iff (files : List SourceFile) (options : Options) {i : Nat}
    {f : SourceFile} (hf : files[i]? = some f) :
    ((start files options true).step (.evaluate (.check i))).1.result =
      .ok (.reply (.answers [⟨.check f, .ok false⟩])) ↔ ¬ Valid f := by
  have hr : (start files options true).request? (.check i) = some (.check f) := by
    rw [request?, show (start files options true).file? i = some f from hf]
    rfl
  obtain ⟨x, s', hact, ⟨ok, rfl, hmeets⟩, -⟩ :=
    ((start_sound files options).ends_evaluateStep hr).exists_ok
  have hok : ok = true ↔ Valid f := hmeets
  rw [step_of_ok hact, ← hok, Bool.not_eq_true]
  constructor
  · intro h
    cases h
    rfl
  · rintro rfl
    rfl

theorem start_explained (files : List SourceFile) (options : Options) :
    Explained files (start files options true).state :=
  .start (start_served? files options) rfl

end Session

/-- Numbered files with one number are one file. -/
theorem eq_of_id_number {sources : List (String × String)} :
    ∀ f ∈ SourceFile.number sources, ∀ g ∈ SourceFile.number sources, f.id = g.id → f = g := by
  intro f hf g hg hid
  obtain ⟨i, hi⟩ := List.mem_iff_getElem?.1 hf
  obtain ⟨j, hj⟩ := List.mem_iff_getElem?.1 hg
  rw [Session.id_of_number hi, Session.id_of_number hj] at hid
  obtain rfl : i = j := congrArg FileId.index hid
  exact Option.some.inj (hi.symm.trans hj)

/-- The verdict that is kept on a file that was checked. -/
theorem exists_verdict {sources : List (String × String)} (options : Options) {steps : List Step}
    (hsteps : ∀ st ∈ steps, st.IsEvaluate) {i : Nat} {f : SourceFile}
    (hf : (SourceFile.number sources)[i]? = some f) (hchecks : ∃ st ∈ steps, st.Checks i) :
    ∃ ok, ((Session.start (SourceFile.number sources) options true).after steps).state.served?
        (.check f) = some ok ∧ (ok = true ↔ Valid f) ∧
      (ok = false ↔ ∃ x ∈ ((Session.start (SourceFile.number sources) options true).after
        steps).state.diagnostics, x.IsErrorIn ⟨i⟩) := by
  have hstart := Session.start_sound (SourceFile.number sources) options
  have hcorrect := (hstart.after fun st hst =>
    Session.not_isPut_of_isEvaluate (hsteps st hst)).sits.correct
  obtain ⟨hexplained, -, hserved⟩ := hstart.after_explained (Session.start_explained _ _) hsteps
  obtain ⟨ok, hok⟩ := Option.isSome_iff_exists.1 (hserved i f hf hchecks)
  have hverdict := hexplained.verdict hcorrect eq_of_id_number (List.mem_of_getElem? hf) hok
  rw [Session.id_of_number hf] at hverdict
  exact ⟨ok, hok, hcorrect _ _ hok, hverdict⟩

end Demand.Compiler
