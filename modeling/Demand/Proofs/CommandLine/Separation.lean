import Demand.Proofs.CommandLine.Checking
import Demand.Proofs.Compiler.Interleaving

/-!
# Files do not interfere

When the program comes to a file, its engine keeps nothing about it, whatever it keeps about the
files before. So what it reports about the file is what it reports if that is the only one, at places
of the file (`Checked.diagnostics_eq`), and all that it reports is the concatenation of what it
reports about each file alone (`buffer_eq_flatMap`). With what holds of sessions that work on several
files in turn, files do not interfere (`files_do_not_interfere`).
-/

namespace Demand.CommandLine

open Compiler Compiler.Session

/-! ## Evaluations one after the other -/

section Evaluated

variable {files files' : List SourceFile} {p : Pairing} {rs rs' : List Request}
  {s s' t t' : State family}

/-- Requests that are alike, one after the other. -/
theorem follow_evaluated (hrs : List.Forall₂ (Request.Like p) rs rs') (hst : Similar p s t)
    (hs : Evaluated files rs s s') (ht : Evaluated files' rs' t t') :
    ∃ p', Follow p p' s t s' t' := by
  induction hs generalizing p rs' t with
  | nil =>
    cases hrs
    cases ht
    exact ⟨p, .quiet (.refl p) hst rfl rfl⟩
  | cons ho _ ih =>
    cases hrs with
    | cons hr hrs =>
      cases ht with
      | cons ho' ht =>
        obtain ⟨p₁, hfollow, -⟩ := follow_outside hr hst ho ho'
        have hrest := hrs.imp fun _ _ hr => hr.mono hfollow.grows
        obtain ⟨p', hfollow'⟩ := ih hrest hfollow.similar ht
        exact ⟨p', hfollow.trans hfollow'⟩

theorem sits_evaluated (hrs : ∀ r ∈ rs, r.file ∈ files) (hs : Sits [] s)
    (h : Evaluated files rs s s') : Sits [] s' := by
  induction h with
  | nil => exact hs
  | cons ho _ ih =>
    obtain ⟨hr, hrest⟩ := List.forall_mem_cons.1 hrs
    exact ih hrest ((Compiler.ends_evaluate hr hs).of_ok ho).1

/-- Requests about other files leave the file aside. -/
theorem aside_evaluated {f : SourceFile} (hrs : ∀ r ∈ rs, r.file ∈ files)
    (hne : ∀ r ∈ rs, r.file ≠ f) (hs : Sits [] s) (h : Evaluated files rs s s') :
    Aside f s s' := by
  induction h with
  | nil => exact .refl _
  | cons ho _ ih =>
    obtain ⟨hr, hrest⟩ := List.forall_mem_cons.1 hrs
    obtain ⟨hf, hrest'⟩ := List.forall_mem_cons.1 hne
    have hs₁ := ((Compiler.ends_evaluate hr hs).of_ok ho).1
    exact (aside_evaluate hr hs hf ho).trans (ih hrest hrest' hs₁)

end Evaluated

/-! ## Files one after the other -/

section Checked

variable {args : Arguments} {files files' fs : List SourceFile} {f : SourceFile} {p : Pairing}
  {s s₁ s₂ s₃ s₄ s' t t₁ t₂ t₃ t₄ t' : State family}

theorem Logged.cache (h : Logged s s') : s'.cache = s.cache := by rw [h]

theorem Logged.world (h : Logged s s') : s'.world = s.world := by rw [h]

theorem Logged.follow (hs : Logged s s') (ht : Logged t t') (h : Similar p s t) :
    Follow p p s t s' t' :=
  .quiet (.refl p) (h.congr hs.cache hs.world ht.cache ht.world) hs.diagnostics ht.diagnostics

theorem registered_result? (args : Arguments) (r : Request) : (registered args).result? r = none :=
  rfl

/-- What the program reports about a file if it is the only one, at places of the file. -/
def reportsAlone (args : Arguments) (f : SourceFile) : List Diagnostic :=
  (buffer args (SourceFile.number [(f.name, f.content)])).map (Diagnostic.moved f.id)

/-- A file of which nothing is kept is checked as if it were the only one. -/
theorem diagnostics_of_checked (hnone : ∀ q : Request, q.file = f → s.result? q = none)
    {o : Outcome family (.check f)} (hl : Logged s s₁)
    (ho : evaluate files (.check f) s₁ = .ok o s₂) (hl' : Logged s₂ s₃)
    (he : Evaluated files (if args.emitIr then [.emit f] else []) s₃ s₄) :
    s₄.diagnostics = s.diagnostics ++ reportsAlone args f := by
  let g : SourceFile := ⟨⟨0⟩, f.name, f.content⟩
  let p : Pairing := ⟨f, g, rfl, rfl, [], .nil⟩
  have hst : Similar p s (registered args) := by
    refine .of_none hnone (fun q _ => registered_result? args q) ?_ rfl
    intro m hm
    cases hm
  obtain ⟨code, t, -, hchecked, -, hbuffer⟩ :=
    exists_checked args (SourceFile.number [(f.name, f.content)])
  have hchecked : Checked args [g] [g] (registered args) t := hchecked
  cases hchecked with
  | cons hk ho' hk' he' hrest =>
    cases hrest
    have hfollow := hl.follow hk hst
    obtain ⟨p₁, hfollow₁, -⟩ := follow_outside (p := p) .check hfollow.similar ho ho'
    have hfollow₂ := hl'.follow hk' hfollow₁.similar
    have hemit : List.Forall₂ (Request.Like p₁) (if args.emitIr then [.emit f] else [])
        (if args.emitIr then [.emit g] else []) := by
      cases args.emitIr with
      | false => exact .nil
      | true => exact .cons (Request.Like.mono (p := p) .emit hfollow₁.grows) .nil
    obtain ⟨p₂, hfollow₃⟩ := follow_evaluated hemit hfollow₂.similar he he'
    obtain ⟨ds, hs, ht⟩ := (((hfollow.trans hfollow₁).trans hfollow₂).trans hfollow₃).reported
    have hds : ds = buffer args (SourceFile.number [(f.name, f.content)]) := by
      rw [← hbuffer, ht]
      rfl
    rw [hs, hds]
    rfl

/-- What is reported about files is what is reported about each alone, one after the other. -/
theorem Checked.diagnostics_eq (h : Checked args files fs s s') (hfs : ∀ f ∈ fs, f ∈ files)
    (hnodup : fs.Nodup) (hs : Sits [] s)
    (hnone : ∀ q : Request, q.file ∈ fs → s.result? q = none) :
    s'.diagnostics = s.diagnostics ++ fs.flatMap (reportsAlone args) := by
  induction h with
  | nil => simp
  | @cons f fs s s₁ s₂ s₃ s₄ s' o hl ho hl' he _ ih =>
    obtain ⟨hf, hrest⟩ := List.forall_mem_cons.1 hfs
    obtain ⟨hnotMem, hnodup⟩ := List.nodup_cons.1 hnodup
    have hs₁ : Sits [] s₁ := hs.still hl.still
    have hs₃ : Sits [] s₃ :=
      ((Compiler.ends_evaluate (r := .check f) hf hs₁).of_ok ho).1.still hl'.still
    have hemit : ∀ r ∈ (if args.emitIr then [Request.emit f] else []), r.file = f := by
      intro r hr
      split at hr
      · rw [List.mem_singleton.1 hr]
        rfl
      · cases hr
    have hfiles : ∀ r ∈ (if args.emitIr then [Request.emit f] else []), r.file ∈ files :=
      fun r hr => by rw [hemit r hr]; exact hf
    -- the file leaves those after it aside, so nothing is kept of them yet
    have haside : ∀ g, f ≠ g → Aside g s s₄ := by
      intro g hne
      have haside₁ : Aside g s s₁ := .of_eq hl.cache hl.world
      have haside₂ : Aside g s₁ s₂ := aside_evaluate (r := .check f) hf hs₁ hne ho
      have haside₃ : Aside g s₂ s₃ := .of_eq hl'.cache hl'.world
      have haside₄ : Aside g s₃ s₄ :=
        aside_evaluated hfiles (fun r hr => by rw [hemit r hr]; exact hne) hs₃ he
      exact ((haside₁.trans haside₂).trans haside₃).trans haside₄
    have hnone₄ : ∀ q : Request, q.file ∈ fs → s₄.result? q = none := by
      intro q hq
      have hne : f ≠ q.file := by
        rintro rfl
        exact hnotMem hq
      rw [(haside q.file hne).results q rfl]
      exact hnone q (List.mem_cons_of_mem f hq)
    have hhead := diagnostics_of_checked (fun q hq => hnone q (by simp [hq])) hl ho hl' he
    rw [ih hrest hnodup (sits_evaluated hfiles hs₃ he) hnone₄, hhead, List.flatMap_cons,
      List.append_assoc]

end Checked

/-- Files that are numbered are distinct. -/
theorem nodup_number (sources : List (String × String)) : (SourceFile.number sources).Nodup := by
  rw [List.nodup_iff_getElem?_ne_getElem?]
  intro i j hij hj heq
  have hi : (SourceFile.number sources)[i]? = some (SourceFile.number sources)[j] := by
    rw [heq, List.getElem?_eq_getElem hj]
  have hid := (id_of_number hi).symm.trans (id_of_number (List.getElem?_eq_getElem hj))
  have : i = j := congrArg FileId.index hid
  omega

/-- What the program reports is what it reports about each file alone, in the order of the files. -/
theorem buffer_eq_flatMap (args : Arguments) (sources : List (String × String)) :
    buffer args (SourceFile.number sources) =
      (SourceFile.number sources).flatMap (reportsAlone args) := by
  obtain ⟨code, s, -, hchecked, -, hbuffer⟩ := exists_checked args (SourceFile.number sources)
  rw [← hbuffer, hchecked.diagnostics_eq (fun f hf => hf) (nodup_number sources)
    (registered_sits args) fun q _ => registered_result? args q]
  rfl

/-! ## Separation -/

/-- Files do not interfere, also if they have the same name and the same text. In a session that
evaluates requests and drops results of several files in turn, and drops all in between, the steps
that concern a file give and report what they do in a session that takes only those steps, over any
files of which one has the same name and text: the results are alike along one correspondence of the
definitions of the file, what is reported differs in the number of the file, and the same references
are filed. So the program reports about its files, in the order of its arguments, what it reports
about each of them alone, and that is what it draws, all of it. -/
theorem files_do_not_interfere :
    (∀ (sources sources' : List (String × String)) (options options' : Options)
      (steps : List Step), (∀ st ∈ steps, st.Works) → ∀ (i j : Nat) (f g : SourceFile),
      (SourceFile.number sources)[i]? = some f → (SourceFile.number sources')[j]? = some g →
      sources[i]? = sources'[j]? →
      (∃ p : Pairing, p.left = f ∧ p.right = g ∧
        List.Forall₂
          (Observation.Like p
            (((Session.start (SourceFile.number sources) options true).after steps).rank f))
          ((Session.start (SourceFile.number sources) options true).observed f steps)
          ((Session.start (SourceFile.number sources') options' true).observed g
            ((Session.start (SourceFile.number sources) options true).alone f j steps))) ∧
      ∀ ref, ref ∈ ((Session.start (SourceFile.number sources) options true).after
          steps).state.recorder.filed f.id ↔
        ref ∈ ((Session.start (SourceFile.number sources') options' true).after
          ((Session.start (SourceFile.number sources) options true).alone f j
            steps)).state.recorder.filed g.id) ∧
    ∀ (builtWith : String) (read : String → Except ReadError String) (argv : List String)
      (args : Arguments) (files : List SourceFile), Arguments.parse argv = .ok args →
      args.help = false → args.version = false → args.files ≠ [] →
      readFiles read args.files = .ok files →
      buffer args files = files.flatMap (reportsAlone args) ∧
      renderDiagnostics true files (files.flatMap (reportsAlone args)) =
        (diagnosticLines files (files.flatMap (reportsAlone args))).map .ok ∧
      ∃ first last, (run builtWith read argv).stderr =
        first ++ lines (diagnosticLines files (files.flatMap (reportsAlone args))) ++ last := by
  constructor
  · intro sources sources' options options' steps hsteps i j f g hf hg hsame
    exact ⟨observed_alone sources sources' options options' steps hsteps hf hg hsame,
      mem_filed_alone sources sources' options options' steps hsteps hf hg hsame⟩
  · intro builtWith read argv args files hargs hhelp hversion hfiles hread
    obtain ⟨sources, rfl⟩ := readFiles_eq_number hread
    obtain ⟨out, first, last, hprogram⟩ := checkProgram_eq args sources
    obtain ⟨greeting, hrun⟩ := run_eq builtWith hargs hhelp hversion hfiles hread
    have hdrawn := (drawDiagnostics_buffer args sources).1
    rw [buffer_eq_flatMap] at hdrawn hprogram
    exact ⟨buffer_eq_flatMap args sources, hdrawn, first, last, by rw [hrun, hprogram]⟩

/-- A text with a cycle and a name that is not declared. -/
def copied : String :=
  "let a = b + q; let b = a;"

/-- Two files of one name and text. -/
def copies : List (String × String) :=
  [("m", copied), ("m", copied)]

/-- Steps on both in turn: values on the cycle are asked for, one of the files is read again, and all
results are dropped. -/
def alternating : List Step :=
  [.hold 0, .hold 1, .evaluate (.value 3), .clear (.parseModule 0), .evaluate (.value 0),
    .holdLookup 1 "a", .both 0, .clearCache, .evaluateD (.value 2 (some 7)), .hold 1,
    .clear (.lookup 1 "b"), .evaluate (.check 1)]

/-- The steps on the second of the two files, with the definitions of its first reading under their
numbers in a session without the first. -/
def secondAlone : List Step :=
  [.hold 0, .evaluate (.value 1), .holdLookup 0 "a", .clearCache, .evaluateD (.value 0 (some 7)),
    .hold 0, .clear (.lookup 0 "b"), .evaluate (.check 0)]

/-- The second file among both and alone, and the program on both. -/
theorem files_do_not_interfere_copies :
    (∀ st ∈ alternating, st.Works) ∧
    (Session.start (SourceFile.number copies) {} true).alone ⟨⟨1⟩, "m", copied⟩ 0 alternating =
      secondAlone ∧
    (∃ (f g : SourceFile) (p : Pairing), f.id = ⟨1⟩ ∧ g.id = ⟨0⟩ ∧ p.left = f ∧ p.right = g ∧
      List.Forall₂
        (Observation.Like p
          (((Session.start (SourceFile.number copies) {} true).after alternating).rank f))
        ((Session.start (SourceFile.number copies) {} true).observed f alternating)
        ((Session.start (SourceFile.number (copies.drop 1)) {} true).observed g secondAlone)) ∧
    ((Session.start (SourceFile.number (copies.drop 1)) {} true).observed ⟨⟨0⟩, "m", copied⟩
      secondAlone).map (fun o => o.reported.length) = [0, 3, 0, 0, 4, 0, 0, 0] ∧
    buffer { mixedArguments with files := ["m", "m"] } (SourceFile.number copies) =
      (SourceFile.number copies).flatMap
        (reportsAlone { mixedArguments with files := ["m", "m"] }) := by
  have hsteps : ∀ st ∈ alternating, st.Works := by
    simp [alternating, Step.Works]
  have halone : (Session.start (SourceFile.number copies) {} true).alone ⟨⟨1⟩, "m", copied⟩ 0
      alternating = secondAlone := by
    decide +kernel
  obtain ⟨p, hleft, hright, hlike⟩ := (files_do_not_interfere.1 copies (copies.drop 1) {} {}
    alternating hsteps 1 0 ⟨⟨1⟩, "m", copied⟩ ⟨⟨0⟩, "m", copied⟩ rfl rfl rfl).1
  rw [halone] at hlike
  have hbuffer := files_do_not_interfere.2 "" (fun _ => .ok copied) ["m", "--emit-ir", "m"]
    { mixedArguments with files := ["m", "m"] } (SourceFile.number copies) rfl rfl rfl (by simp) rfl
  refine ⟨hsteps, halone, ⟨_, _, p, rfl, rfl, hleft, hright, hlike⟩, ?_, hbuffer.1⟩
  decide +kernel

end Demand.CommandLine
