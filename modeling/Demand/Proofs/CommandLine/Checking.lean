import Demand.CommandLine.Program
import Demand.Proofs.Compiler.Display

/-!
# The program checks its files

What the program does to the state of its engine is the check of each file, and the evaluation of
its code if that is asked for; what it logs in between changes nothing else (`Checked`). It never
stops at a fault, all that it reports is drawn (`drawDiagnostics_buffer`), and it ends with exit code
2 just if the check of one of its files fails (`failed_check_iff_error`).
-/

namespace Demand.CommandLine

open Compiler Compiler.Session

/-! ## What is done to the state -/

/-- The states differ in their logs at most. -/
def Logged (s s' : State family) : Prop :=
  s' = { s with log := s'.log }

/-- Files are checked one after the other, and their code is evaluated if it is asked for. -/
inductive Checked (args : Arguments) (files : List SourceFile) :
    List SourceFile → State family → State family → Prop
  | nil {s : State family} : Checked args files [] s s
  | cons {f : SourceFile} {fs : List SourceFile} {s s₁ s₂ s₃ s₄ s' : State family}
      {o : Outcome family (.check f)} :
      Logged s s₁ → evaluate files (.check f) s₁ = .ok o s₂ → Logged s₂ s₃ →
      Session.Evaluated files (if args.emitIr then [.emit f] else []) s₃ s₄ →
      Checked args files fs s₄ s' → Checked args files (f :: fs) s s'

section

variable {args : Arguments} {files : List SourceFile} {s s' : State family}

theorem Logged.refl (s : State family) : Logged s s := rfl

theorem Logged.log (s : State family) (level : LogLevel) (text : String) :
    Logged s { s with log := s.log.write level text } := rfl

theorem Logged.diagnostics (h : Logged s s') : s'.diagnostics = s.diagnostics := by rw [h]

theorem Logged.still (h : Logged s s') : Still s s' := by
  rw [h]
  exact ⟨rfl, rfl, rfl, rfl, rfl, rfl, fun _ => rfl, _, .rfl fun _ h => h⟩

theorem ends_evaluate {r : Request} (hr : r.file ∈ files) (hs : Sits [] s) :
    Eval.Ends (fun _ => False) (evaluate files r) s fun o s' =>
      evaluate files r s = .ok o s' ∧ Sits [] s' := by
  have hends : Eval.Ends (fun _ => False) (evaluate files r) s fun o s' =>
      Sits [] s' ∧ ∃ out, o = .ok out ∧ Meets r out := Eval.ends_bind.2 (Compiler.ends_evaluate hr hs)
  exact hends.attach.mono fun _ _ h => ⟨h.1, h.2.1⟩

theorem ends_checkFile {f : SourceFile} (hf : f ∈ files) (hs : Sits [] s) :
    Eval.Ends (fun _ => False) (checkFile args files f) s fun _ s₄ => Sits [] s₄ ∧
      ∃ s₁ s₂ s₃ o, Logged s s₁ ∧ evaluate files (.check f) s₁ = .ok o s₂ ∧ Logged s₂ s₃ ∧
        Session.Evaluated files (if args.emitIr then [.emit f] else []) s₃ s₄ := by
  have hcode : ∀ s₃, Sits [] s₃ → Eval.Ends (fun _ => False)
      (if args.emitIr = true then do
        let o ← evaluate files (.emit f)
        pure (Option.getD (o.getD none) "")
      else pure "") s₃ fun _ s₄ => Sits [] s₄ ∧
        Session.Evaluated files (if args.emitIr then [.emit f] else []) s₃ s₄ := by
    intro s₃ hs₃
    cases args.emitIr with
    | false => exact ⟨hs₃, .nil⟩
    | true =>
      refine (ends_evaluate (r := .emit f) hf hs₃).bind ?_
      rintro o s₄ ⟨heval, hs₄⟩
      exact ⟨hs₄, .cons heval .nil⟩
  have hcheck : ∀ s₁, Logged s s₁ → ∀ k : Outcome family (.check f) → Eval family String,
      (∀ o s₂, Sits [] s₂ → Eval.Ends (fun _ => False) (k o) s₂ fun _ s₄ => Sits [] s₄ ∧
        ∃ s₃, Logged s₂ s₃ ∧
          Session.Evaluated files (if args.emitIr then [.emit f] else []) s₃ s₄) →
      Eval.Ends (fun _ => False) (evaluate files (.check f) >>= k) s₁ fun _ s₄ => Sits [] s₄ ∧
        ∃ s₁ s₂ s₃ o, Logged s s₁ ∧ evaluate files (.check f) s₁ = .ok o s₂ ∧ Logged s₂ s₃ ∧
          Session.Evaluated files (if args.emitIr then [.emit f] else []) s₃ s₄ := by
    intro s₁ hl k hk
    refine (ends_evaluate (r := .check f) hf (hs.still hl.still)).bind ?_
    rintro o s₂ ⟨heval, hs₂⟩
    refine (hk o s₂ hs₂).mono ?_
    rintro _ s₄ ⟨hs₄, s₃, hl', hevaluated⟩
    exact ⟨hs₄, s₁, s₂, s₃, o, hl, heval, hl', hevaluated⟩
  unfold checkFile
  cases args.verbose with
  | false =>
    refine hcheck s (.refl s) _ fun o s₂ hs₂ => ?_
    exact (hcode s₂ hs₂).mono fun _ _ h => ⟨h.1, s₂, .refl s₂, h.2⟩
  | true =>
    refine hcheck _ (.log s _ _) _ fun o s₂ hs₂ => ?_
    exact (hcode _ (hs₂.still (Logged.log s₂ _ _).still)).mono fun _ _ h => ⟨h.1, _, .log s₂ _ _, h.2⟩

/-- The files are checked, and nothing stops the program. -/
theorem ends_checkFiles {fs : List SourceFile} (hfs : ∀ f ∈ fs, f ∈ files) (hs : Sits [] s) :
    Eval.Ends (fun _ => False) (checkFiles args files fs) s fun _ s' =>
      Checked args files fs s s' ∧ Sits [] s' := by
  induction fs generalizing s with
  | nil => exact ⟨.nil, hs⟩
  | cons f fs ih =>
    refine (ends_checkFile (hfs f List.mem_cons_self) hs).bind ?_
    rintro code s₄ ⟨hs₄, s₁, s₂, s₃, o, hl, heval, hl', hevaluated⟩
    refine (ih (fun g hg => hfs g (List.mem_cons_of_mem f hg)) hs₄).bind ?_
    rintro rest s' ⟨hchecked, hs'⟩
    exact ⟨.cons hl heval hl' hevaluated hchecked, hs'⟩

end

/-! ## What the program reports -/

/-- The engine of the program before the first file is checked. -/
def registered (args : Arguments) : State family :=
  registerAll.final (initialState args)

/-- What the program reports about the files: the diagnostics when all are checked. -/
def buffer (args : Arguments) (files : List SourceFile) : Diagnostics :=
  ((do registerAll; checkFiles args files files).final (initialState args)).diagnostics

theorem registerAll_initialState (args : Arguments) :
    registerAll (initialState args) = .ok () (registered args) :=
  rfl

theorem registered_served? (args : Arguments) (r : Request) : (registered args).served? r = none := by
  cases r <;> rfl

theorem registered_sits (args : Arguments) : Sits [] (registered args) := by
  constructor
  case correct =>
    intro r out hr
    rw [registered_served?] at hr
    cases hr
  case owned => exact ⟨Tables.owned_empty, Tables.owned_empty⟩
  case known =>
    intro k
    cases k <;> rfl
  case found => simp [values]

/-- What is printed at the end is found without a stop. -/
theorem exists_summary (args : Arguments) (files : List SourceFile) (s s₁ : State family) :
    ∃ text s₂, summary args files s s₁ = .ok text s₂ := by
  unfold summary
  cases args.graphviz with
  | false => exact ⟨_, _, rfl⟩
  | true => exact ⟨_, _, rfl⟩

/-- The files are all checked, and what was reported by then is what the program reports. -/
theorem exists_checked (args : Arguments) (files : List SourceFile) :
    ∃ code s, (do registerAll; checkFiles args files files) (initialState args) = .ok code s ∧
      Checked args files files (registered args) s ∧ Sits [] s ∧
      s.diagnostics = buffer args files := by
  have hends : Eval.Ends (fun _ => False) (checkFiles args files files) (registered args) _ :=
    ends_checkFiles (fun f hf => hf) (registered_sits args)
  obtain ⟨code, s, hcheck, hchecked, hs⟩ := hends.exists_ok
  have hrun : (do registerAll; checkFiles args files files) (initialState args) = .ok code s := by
    rw [Eval.bind_apply (registerAll_initialState args), hcheck]
  exact ⟨code, s, hrun, hchecked, hs, by rw [buffer, Eval.final_of_ok hrun]⟩

/-! ## What is drawn -/

/-- What is drawn of the diagnostics. -/
def diagnosticLines (files : List SourceFile) (ds : List Diagnostic) : List String :=
  (drawDiagnostics files ds).1

theorem untilError_map_ok (texts : List String) : untilError (texts.map .ok) = (texts, none) := by
  induction texts with
  | nil => rfl
  | cons text texts ih => rw [List.map_cons, untilError, ih]

section

variable {args : Arguments} {G : Misplacing} {files fs : List SourceFile} {s s' : State family}

theorem composed_of_logged (hs : Composed G files s) (hl : Logged s s') : Composed G files s' := by
  rw [hl]
  exact ⟨hs.orderly.congr rfl rfl hs.orderly.closed hs.orderly.given,
    hs.legible.congr (fun _ => rfl) rfl⟩

theorem composed_of_evaluated {rs : List Request} (hs : Composed G files s)
    (hrs : ∀ r ∈ rs, Sited files r) (h : Session.Evaluated files rs s s') :
    Composed G files s' := by
  induction h with
  | nil => exact hs
  | cons ho _ ih =>
    obtain ⟨hr, hrest⟩ := List.forall_mem_cons.1 hrs
    exact ih (hs.of_evaluate hr ho) hrest

/-- What is reported while files are checked can be shown in them. -/
theorem Checked.composed (h : Checked args files fs s s') (hfs : ∀ f ∈ fs, f ∈ files)
    (hs : Composed G files s) : Composed G files s' := by
  induction h with
  | nil => exact hs
  | @cons f fs s s₁ s₂ s₃ s₄ s' o hl ho hl' he _ ih =>
    obtain ⟨hf, hrest⟩ := List.forall_mem_cons.1 hfs
    have hemit : ∀ r ∈ (if args.emitIr then [Request.emit f] else []), Sited files r := by
      intro r hr
      split at hr
      · rw [List.mem_singleton.1 hr]
        exact sited_of_file hf rfl rfl
      · cases hr
    have hs₂ := (composed_of_logged hs hl).of_evaluate (sited_of_file hf rfl rfl) ho
    exact ih hrest (composed_of_evaluated (composed_of_logged hs₂ hl') hemit he)

end

/-- The program gives no file the definitions of another, so that all it reports is in its files. -/
theorem shownIn_buffer (args : Arguments) (files : List SourceFile) :
    ∀ x ∈ buffer args files, x.ShownIn files := by
  obtain ⟨code, s, -, hchecked, -, hbuffer⟩ := exists_checked args files
  have hstart : Composed (fun _ _ => False) files (initialState args) :=
    composed_empty _ files _ _
  have hcomposed := hchecked.composed (fun f hf => hf) hstart.registerAll
  intro x hx
  rw [← hbuffer] at hx
  refine (hcomposed.legible.told x hx).resolve_right ?_
  rintro ⟨f, ds, -, hG, -⟩
  exact hG

/-- Nothing that the program reports about files it has numbered is beyond the end of its file, so
that all of it is drawn. -/
theorem drawDiagnostics_buffer (args : Arguments) (sources : List (String × String)) :
    let files := SourceFile.number sources
    renderDiagnostics true files (buffer args files) =
        (diagnosticLines files (buffer args files)).map .ok ∧
      (drawDiagnostics files (buffer args files)).2 = none := by
  intro files
  obtain ⟨texts, htexts⟩ :=
    exists_texts_of_shown eq_of_id_number (shownIn_buffer args files) true
  unfold diagnosticLines drawDiagnostics
  rw [htexts, untilError_map_ok]
  exact ⟨rfl, rfl⟩

/-- The program checks its files, prints what was reported, and tells by its exit code whether there
are errors. -/
theorem checkProgram_eq (args : Arguments) (sources : List (String × String)) :
    let files := SourceFile.number sources
    ∃ out first last, checkProgram args files =
      { code := if (buffer args files).hasErrors then 2 else 0
        stdout := out
        stderr := first ++ lines (diagnosticLines files (buffer args files)) ++ last } := by
  intro files
  obtain ⟨code, s, hrun, -, -, hbuffer⟩ := exists_checked args files
  obtain ⟨text, s₂, hsummary⟩ :=
    exists_summary args files s { s with log := { s.log with entries := [] } }
  refine ⟨code ++ text, logLines s.log.entries, logLines s₂.log.entries, ?_⟩
  have hdrawn := (drawDiagnostics_buffer args sources).2
  rw [← hbuffer] at hdrawn ⊢
  rw [checkProgram, EStateM.run, hrun]
  dsimp only [EStateM.run] at hsummary ⊢
  rw [hdrawn, hsummary]
  rfl

/-! ## The exit code -/

section

variable {args : Arguments} {files fs : List SourceFile} {s s' : State family}

theorem explained_of_logged (h : Explained files s) {f : SourceFile} (hf : f ∈ files)
    (hl : Logged s s') : Explained files s' :=
  h.found hf (.quiet h.told hl.still.served? hl.diagnostics)

/-- What is reported while files are checked are genuine findings. -/
theorem Checked.explained (h : Checked args files fs s s') (hfs : ∀ f ∈ fs, f ∈ files)
    (hs : Sits [] s) (hx : Explained files s) :
    Explained files s' ∧ Grows s s' ∧ ∀ f ∈ fs, (s'.served? (.check f)).isSome := by
  induction h with
  | nil =>
    refine ⟨hx, fun _ _ hq => hq, fun f hf => ?_⟩
    cases hf
  | @cons f fs s s₁ s₂ s₃ s₄ s' o hl heval hl' hevaluated _ ih =>
    have hf := hfs f List.mem_cons_self
    have hcheck : (Request.check f).Declared := by rintro d ⟨⟩
    have hemit : (Request.emit f).Declared := by rintro d ⟨⟩
    have hrs : ∀ r ∈ (if args.emitIr then [Request.emit f] else []),
        r.file ∈ files ∧ r.Declared := by
      intro r hr
      split at hr
      · rw [List.mem_singleton.1 hr]
        exact ⟨hf, hemit⟩
      · cases hr
    obtain ⟨hx₂, hs₂, hgrows₂, hchecked₂⟩ :=
      (explained_of_logged hx hf hl).evaluate (hs.still hl.still) (r := .check f) hf hcheck heval
    obtain ⟨hx₄, hs₄, hgrows₄, -⟩ :=
      (explained_of_logged hx₂ hf hl').evaluated (hs₂.still hl'.still) hrs hevaluated
    obtain ⟨hx', hgrows', hchecked'⟩ := ih (fun g hg => hfs g (List.mem_cons_of_mem f hg)) hs₄ hx₄
    have hgrows : Grows s₂ s' := fun q v hq =>
      hgrows' q v (hgrows₄ q v ((hl'.still.served? q).trans hq))
    refine ⟨hx', fun q v hq => hgrows q v (hgrows₂ q v ((hl.still.served? q).trans hq)), ?_⟩
    intro g hg
    rcases List.mem_cons.1 hg with rfl | hg
    · exact isSome_of_grows hgrows (hchecked₂ g (.inl rfl))
    · exact hchecked' g hg

/-- There are errors just if one of the files is not valid. -/
theorem hasErrors_iff (args : Arguments) (files : List SourceFile) :
    (buffer args files).hasErrors = true ↔ ∃ f ∈ files, ¬ Valid f := by
  obtain ⟨code, s, -, hchecked, hs, hbuffer⟩ := exists_checked args files
  obtain ⟨hexplained, -, hserved⟩ := hchecked.explained (fun f hf => hf) (registered_sits args)
    (.start (registered_served? args) rfl)
  rw [← hbuffer, Diagnostics.hasErrors, List.any_eq_true]
  constructor
  · rintro ⟨x, hx, herror⟩
    obtain ⟨f, hf, hinvalid, -⟩ := hexplained.exists_invalid hx herror
    exact ⟨f, hf, hinvalid⟩
  · rintro ⟨f, hf, hinvalid⟩
    obtain ⟨ok, hok⟩ := Option.isSome_iff_exists.1 (hserved f hf)
    have hmeets : ok = true ↔ Valid f := hs.correct _ _ hok
    have hbad : ok = false := by
      rw [Bool.eq_false_iff]
      exact fun htrue => hinvalid (hmeets.1 htrue)
    obtain ⟨x, hx, herror, -⟩ := hexplained.told.blamed (.check f) ok hok hbad
    exact ⟨x, hx, herror⟩

end

/-- The program on arguments that ask for files to be checked. -/
theorem run_eq (builtWith : String) {read : String → Except ReadError String} {argv : List String}
    {args : Arguments} {files : List SourceFile} (hargs : Arguments.parse argv = .ok args)
    (hhelp : args.help = false) (hversion : args.version = false) (hfiles : args.files ≠ [])
    (hread : readFiles read args.files = .ok files) :
    ∃ greeting, run builtWith read argv =
      { checkProgram args files with stdout := greeting ++ (checkProgram args files).stdout } := by
  have hsome : args.files.isEmpty = false := by simpa using hfiles
  unfold run
  simp only [hargs, hhelp, hversion, hsome, hread]
  exact ⟨_, rfl⟩

/-- Files are numbered in the order of the arguments. -/
theorem readFiles_eq_number {read : String → Except ReadError String} {paths : List String}
    {files : List SourceFile} (h : readFiles read paths = .ok files) :
    ∃ sources, files = SourceFile.number sources := by
  unfold readFiles at h
  generalize List.mapM (m := Except (String × ReadError)) _ paths = sources at h
  cases sources with
  | error e => cases h
  | ok sources =>
    cases h
    exact ⟨sources, rfl⟩

/-- While requests of numbered files are evaluated, in any order, every error that is reported has a
location, and a check fails just if an error in its file was reported by then or is later: both for
the result that a step gives, and for the one that is kept, also if it was computed for code. So the
program reports errors, and ends with exit code 2 and not 0, just if the check of one of its files
fails. -/
theorem failed_check_iff_error :
    (∀ (sources : List (String × String)) (options : Options) (steps : List Step),
      (∀ st ∈ steps, st.IsEvaluate) →
      (∀ x ∈ ((Session.start (SourceFile.number sources) options true).after
        steps).state.diagnostics, x.isError = true → ∃ l, x.location = some l) ∧
      ∀ i f, (SourceFile.number sources)[i]? = some f →
        (∀ (k : Nat) (st : Step), steps[k]? = some st → st.GivesVerdict i →
          ∃ (report : Compiler.Report) (response : Response) (ok : Bool),
          ((Session.start (SourceFile.number sources) options true).run steps)[k]? = some report ∧
            report.result = .ok response ∧ response.verdict? f = some ok ∧
            (ok = false ↔ ∃ x ∈ ((Session.start (SourceFile.number sources) options true).after
              steps).state.diagnostics, x.IsErrorIn ⟨i⟩)) ∧
        ((∃ st ∈ steps, st.Checks i) → ∃ ok,
          ((Session.start (SourceFile.number sources) options true).after steps).state.served?
              (.check f) = some ok ∧
            (ok = false ↔ ∃ x ∈ ((Session.start (SourceFile.number sources) options true).after
              steps).state.diagnostics, x.IsErrorIn ⟨i⟩))) ∧
    ∀ (builtWith : String) (read : String → Except ReadError String) (argv : List String)
      (args : Arguments) (files : List SourceFile), Arguments.parse argv = .ok args →
      args.help = false → args.version = false → args.files ≠ [] →
      readFiles read args.files = .ok files →
      ((run builtWith read argv).code = 2 ∨ (run builtWith read argv).code = 0) ∧
      ((run builtWith read argv).code = 2 ↔ (buffer args files).hasErrors = true) ∧
      ((run builtWith read argv).code = 2 ↔ ∃ i f, files[i]? = some f ∧
        ((Session.start files {} true).step (.evaluate (.check i))).1.result =
          .ok (.reply (.answers [⟨.check f, .ok false⟩]))) := by
  refine ⟨fun sources options steps hsteps => ?_, ?_⟩
  · have hstart := start_sound (SourceFile.number sources) options
    have hputs : ∀ st ∈ steps, ¬ st.IsPut := fun st hst => not_isPut_of_isEvaluate (hsteps st hst)
    obtain ⟨hexplained, -, -⟩ :=
      hstart.after_explained (start_explained (SourceFile.number sources) options) hsteps
    refine ⟨fun x hx herror => ?_, fun i f hf => ⟨fun k st hk hst => ?_, fun hchecks => ?_⟩⟩
    · obtain ⟨f, -, -, l, hl, -⟩ := hexplained.exists_invalid hx herror
      exact ⟨l, hl⟩
    · obtain ⟨ok, -, hok, hverdict⟩ := exists_verdict options hsteps hf
        ⟨st, List.mem_of_getElem? hk, checks_of_givesVerdict hst⟩
      have htake : ∀ st ∈ steps.take k, ¬ st.IsPut := fun st hst =>
        hputs st (List.mem_of_mem_take hst)
      obtain ⟨response, ok', hresult, hresponse, hok'⟩ :=
        (hstart.after htake).verdict_of_step hf hst
      -- the result that is given and the one that is kept both tell whether the file is valid
      obtain rfl : ok' = ok := Bool.eq_iff_iff.2 (hok'.trans hok.symm)
      exact ⟨_, response, ok', hstart.run_getElem? hputs hk, hresult, hresponse, hverdict⟩
    · obtain ⟨ok, hserved, -, hverdict⟩ := exists_verdict options hsteps hf hchecks
      exact ⟨ok, hserved, hverdict⟩
  · intro builtWith read argv args files hargs hhelp hversion hfiles hread
    obtain ⟨sources, rfl⟩ := readFiles_eq_number hread
    obtain ⟨out, first, last, hprogram⟩ := checkProgram_eq args sources
    obtain ⟨greeting, hrun⟩ := run_eq builtWith hargs hhelp hversion hfiles hread
    generalize SourceFile.number sources = files at *
    have hcode : (run builtWith read argv).code =
        if (buffer args files).hasErrors then 2 else 0 := by
      rw [hrun, hprogram]
    have hiff : (run builtWith read argv).code = 2 ↔ (buffer args files).hasErrors = true := by
      rw [hcode]
      cases (buffer args files).hasErrors <;> decide
    refine ⟨?_, hiff, ?_⟩
    · rw [hcode]
      cases (buffer args files).hasErrors <;> decide
    · rw [hiff, hasErrors_iff]
      constructor
      · rintro ⟨f, hf, hinvalid⟩
        obtain ⟨i, hi⟩ := List.mem_iff_getElem?.1 hf
        exact ⟨i, f, hi, (step_check_eq_false_iff files {} hi).2 hinvalid⟩
      · rintro ⟨i, f, hi, hfalse⟩
        exact ⟨f, List.mem_of_getElem? hi, (step_check_eq_false_iff files {} hi).1 hfalse⟩

/-- A file in which two values need each other, and one without errors. -/
def mixed : List (String × String) :=
  [("one", "let a = b; let b = a;"), ("two", "let c = 1;")]

/-- Steps that ask for a value on the cycle before the check. -/
def mixedSteps : List Step :=
  [.hold 0, .evaluate (.value 1), .both 1, .evaluate (.check 0)]

/-- The two files, whatever the path of the second is. -/
def readMixed (path : String) : Except ReadError String :=
  .ok (if path = "one" then "let a = b; let b = a;" else "let c = 1;")

/-- The arguments that ask for the code of the two files. -/
def mixedArguments : Arguments where
  debugCycles := false
  dumpReferences := false
  emitIr := true
  graphviz := false
  help := false
  stats := false
  verbose := false
  version := false
  files := ["one", "two"]

/-- The check of the first file after a value of it was asked for, and the program on both files. -/
theorem failed_check_iff_error_mixed :
    (∃ f report response ok, (SourceFile.number mixed)[0]? = some f ∧
      ((Session.start (SourceFile.number mixed) {} true).run mixedSteps)[3]? = some report ∧
        report.result = .ok response ∧ response.verdict? f = some ok ∧
        (ok = false ↔ ∃ x ∈ ((Session.start (SourceFile.number mixed) {} true).after
          mixedSteps).state.diagnostics, x.IsErrorIn ⟨0⟩)) ∧
    Arguments.parse ["one", "--emit-ir", "two"] = .ok mixedArguments ∧
    readFiles readMixed mixedArguments.files = .ok (SourceFile.number mixed) ∧
    ((run "" readMixed ["one", "--emit-ir", "two"]).code = 2 ↔ ∃ i f,
      (SourceFile.number mixed)[i]? = some f ∧
        ((Session.start (SourceFile.number mixed) {} true).step (.evaluate (.check i))).1.result =
          .ok (.reply (.answers [⟨.check f, .ok false⟩]))) := by
  have hsteps : ∀ st ∈ mixedSteps, st.IsEvaluate := by
    simp [mixedSteps, Step.IsEvaluate]
  have hargs : Arguments.parse ["one", "--emit-ir", "two"] = .ok mixedArguments := rfl
  have hread : readFiles readMixed mixedArguments.files = .ok (SourceFile.number mixed) := rfl
  obtain ⟨-, hverdicts⟩ := failed_check_iff_error.1 mixed {} mixedSteps hsteps
  obtain ⟨report, response, ok, hverdict⟩ :=
    (hverdicts 0 ⟨⟨0⟩, "one", "let a = b; let b = a;"⟩ rfl).1 3 (.evaluate (.check 0)) rfl rfl
  obtain ⟨-, -, hcode⟩ := failed_check_iff_error.2 "" readMixed ["one", "--emit-ir", "two"]
    mixedArguments (SourceFile.number mixed) hargs rfl rfl (by simp [mixedArguments]) hread
  exact ⟨⟨_, report, response, ok, rfl, hverdict⟩, hargs, hread, hcode⟩

end Demand.CommandLine
