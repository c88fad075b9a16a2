import Demand.Proofs.Compiler.Disclosure

/-!
# Cycles are reported as circuits

A check of a file that can be read reports circuits of its declarations, each as an error and the
notes that belong to it, and nothing that is no circuit. Not every circuit is reported, but every
circuit has a step that is the last of a reported one (`Session.circuits_reported`): of the values on
the circuit one is finished first, and it asks for the next while that one is active.
-/

namespace Demand.Compiler

open Demand.Language

/-! ## Errors and their notes -/

section Groups

variable {f : SourceFile} {fs : List Finding} {pre post : List Diagnostic} {x : Diagnostic}

/-- An error among findings is the first report of one of them, and the rest of it follows. -/
theorem exists_finding (hfs : ∀ y ∈ fs, y.Genuine f)
    (h : fs.flatMap (Finding.diagnostics f) = pre ++ x :: post) (hx : x.severity = .error) :
    ∃ y ∈ fs, ∃ rest, x :: post = y.diagnostics f ++ rest ∧
      ∀ n ∈ rest.head?, n.severity ≠ .note := by
  induction fs generalizing pre with
  | nil =>
    have hnil := congrArg List.length h
    simp at hnil
  | cons y fs ih =>
    have hrest : ∀ y ∈ fs, y.Genuine f := fun y hy => hfs y (List.mem_cons_of_mem _ hy)
    obtain ⟨span, message, notes, hy, hnotes⟩ := (hfs y List.mem_cons_self).exists_diagnostics
    rw [List.flatMap_cons] at h
    rcases List.append_eq_append_iff.1 h with ⟨between, rfl, hfs'⟩ | ⟨between, hpre, hpost⟩
    · obtain ⟨y', hy', rest, hsplit, hhead⟩ := ih hrest hfs'
      exact ⟨y', List.mem_cons_of_mem _ hy', rest, hsplit, hhead⟩
    · cases between with
      | nil =>
        have hfs' : fs.flatMap (Finding.diagnostics f) = [] ++ x :: post := hpost.symm
        obtain ⟨y', hy', rest, hsplit, hhead⟩ := ih hrest hfs'
        exact ⟨y', List.mem_cons_of_mem _ hy', rest, hsplit, hhead⟩
      | cons z between =>
        obtain ⟨rfl, rfl⟩ := List.cons.inj hpost
        -- the error is the first of the finding, as the others are notes
        have hpre : pre = [] := by
          cases pre with
          | nil => rfl
          | cons p pre =>
            rw [hy] at hpre
            have hnote := hnotes x ((List.cons.inj hpre).2 ▸ List.mem_append_right _ (by simp))
            rw [hx] at hnote
            cases hnote
        subst hpre
        refine ⟨y, List.mem_cons_self, fs.flatMap (Finding.diagnostics f), ?_, head?_findings hrest⟩
        rw [hpre]
        rfl

/-- An error that says that a value depends on itself is the first report of a circuit without
repetitions. -/
theorem circuit_of_message (hfs : ∀ y ∈ fs, y.Genuine f)
    (h : fs.flatMap (Finding.diagnostics f) = pre ++ x :: post) (hx : x.severity = .error)
    {n : String} (hmessage : x.message = s!"the value of `{n}` depends on itself") :
    ∃ c rest, x :: post = circuitReport f c ++ rest ∧
      (∀ y ∈ rest.head?, y.severity ≠ .note) ∧ Circuit (declarations f) c ∧ c.Nodup := by
  obtain ⟨y, hy, rest, hsplit, hhead⟩ := exists_finding hfs h hx
  have hgenuine := hfs y hy
  cases y with
  | problem p =>
    obtain ⟨span, message, notes, hp, -⟩ := p.exists_diagnostics f
    have hmem : x ∈ p.diagnostics f := by
      rw [Finding.diagnostics, hp] at hsplit
      rw [hp, (List.cons.inj hsplit).1]
      exact List.mem_cons_self
    have hnot := isAboutCycle_of_problem f p x hmem
    rw [isAboutCycle_of_message hx hmessage] at hnot
    cases hnot
  | cycle d via =>
    obtain ⟨hfile, hcircuit, hnodup⟩ := hgenuine
    rw [diagnostics_cycle hfile] at hsplit
    exact ⟨circuitOf d via, rest, hsplit, hhead, hcircuit, hnodup⟩

end Groups

/-! ## Every circuit has a reported step -/

section Circuits

variable {f : SourceFile} {s : State family} {c : List Declaration} {d : Definition}

/-- Of the values on a circuit that are served, the one that was finished first needs one of which it
was reported that it depends on itself. -/
theorem exists_backs (hs : Correct s) (hc : Circuit (declarations f) c) {done : List Definition}
    (h : Ordered s done) (hd : d ∈ done) (hfile : d.file = f) (hdc : d.declaration ∈ c) :
    ∃ u v, [u, v] <:+: c ++ c.take 1 ∧ Backs f u v s.diagnostics := by
  induction done generalizing d with
  | nil => cases hd
  | cons x done ih =>
    by_cases hearlier : ∃ e ∈ done, e.file = f ∧ e.declaration ∈ c
    · obtain ⟨e, he, hef, hec⟩ := hearlier
      exact ih h.2 he hef hec
    · obtain rfl : d = x := by
        rcases List.mem_cons.1 hd with rfl | hd
        · rfl
        · exact absurd ⟨d, hd, hfile, hdc⟩ hearlier
      obtain ⟨v, hv, hstep⟩ := exists_next hdc
      obtain ⟨-, m, hm, hfind⟩ := hc.needs hstep
      obtain ⟨d?, hserved, hcovered⟩ := h.1 m hm
      -- the name denotes the next declaration on the circuit, which was not finished before
      obtain ⟨hlookup, hfiles⟩ := hs _ _ hserved
      rw [hfile, hfind] at hlookup
      obtain ⟨d', rfl, rfl⟩ := Option.map_eq_some_iff.1 hlookup
      rcases hcovered d' rfl with hdone | hbacks
      · exact absurd ⟨d', hdone, (hfiles d' rfl).trans hfile, hv⟩ hearlier
      · rw [hfile] at hbacks
        exact ⟨_, _, hstep, hbacks⟩

/-- After a check, the value of every first declaration is served. -/
theorem exists_served_first (hs : Coherent f s) (hcorrect : Correct s) {ok : Bool}
    (hcheck : s.served? (.check f) = some ok) {u : Declaration}
    (hu : u ∈ firsts (declarations f)) :
    ∃ d : Definition, d.file = f ∧ d.declaration = u ∧ (s.served? (.value d)).isSome := by
  obtain ⟨hread, hvalues⟩ := (hs _ _ hcheck).2
  obtain ⟨ds?, hread⟩ := Option.isSome_iff_exists.1 hread
  obtain ⟨hds, hfile⟩ := hcorrect _ _ hread
  cases ds? with
  | none =>
    rw [declarations_eq_nil hds.symm] at hu
    cases hu
  | some all =>
    rw [firsts_eq_map hds.symm] at hu
    obtain ⟨d, hd, rfl⟩ := List.mem_map.1 hu
    refine ⟨d, hfile all rfl d (List.mem_of_mem_filter hd), rfl, hvalues d ?_⟩
    exact (first_iff hread d).2 hd

end Circuits

namespace Session

/-- What a check on a new engine reports and leaves. -/
theorem found_of_checkStep {files : List SourceFile} {options : Options} {i : Nat} {f : SourceFile}
    (hf : files[i]? = some f) {x : Response × List Definition} {s' : State family}
    (h : (start files options true).act (.evaluate (.check i)) (start files options true).state =
      .ok x s') :
    ∃ (fs : List Finding) (done : List Definition),
      s'.diagnostics = fs.flatMap (Finding.diagnostics f) ∧ (∀ y ∈ fs, y.Genuine f) ∧
      Ordered s' done ∧ ∀ d, d ∈ done ↔ (s'.served? (.value d)).isSome := by
  have hsound := start_sound files options
  have hmem : f ∈ files := List.mem_of_getElem? hf
  have hdeclared : (Request.check f).Declared := by rintro d ⟨⟩
  have hstep : (Step.evaluate (.check i)).IsEvaluate := trivial
  have hevaluated := evaluated_of_act hstep h
  have hasked : (start files options true).asked (.evaluate (.check i)) = [.check f] := by
    rw [asked, request?, show (start files options true).file? i = some f from hf]
    rfl
  rw [hasked] at hevaluated
  cases hevaluated with
  | cons heval hrest =>
    cases hrest
    obtain ⟨-, hfound, -⟩ := found_of_evaluate hmem hsound.sits
      (.start (start_served? files options)) hdeclared heval
    obtain ⟨fs, hfs, hgenuine⟩ := hfound.findings
    obtain ⟨done, hordered, hdone⟩ := hfound.told.ordered
    exact ⟨fs, done, hfs, hgenuine, hordered, hdone⟩

/-- A check of a file that can be read, on a new engine, reports cycles as circuits of the graph of
its first declarations. Every error that says that a value depends on itself begins the report of a
circuit without repetitions: notes for the declarations of the circuit other than the first follow
it, the last first, and then no note. On every circuit there is a step that is the last of a circuit
that is reported from the declaration after it. So the error is reported just if there is a
circuit. -/
theorem circuits_reported (files : List SourceFile) (options : Options) (i : Nat) (f : SourceFile)
    (ds : List Declaration) (hf : files[i]? = some f) (hds : declarations? f = some ds) :
    ∃ ok s', (start files options true).step (.evaluate (.check i)) =
        (⟨.ok (.reply (.answers [⟨.check f, .ok ok⟩])), s'.state.diagnostics.length⟩, s') ∧
      (∀ pre x post (n : String), s'.state.diagnostics = pre ++ x :: post → x.severity = .error →
        x.message = s!"the value of `{n}` depends on itself" →
        ∃ c rest, x :: post = circuitReport f c ++ rest ∧
          (∀ y ∈ rest.head?, y.severity ≠ .note) ∧ Circuit ds c ∧ c.Nodup) ∧
      (∀ c, Circuit ds c → ∃ u v, [u, v] <:+: c ++ c.take 1 ∧
        ∃ c', HasGroup s'.state.diagnostics (circuitReport f c') ∧ Circuit ds c' ∧ c'.Nodup ∧
          c'.head? = some v ∧ c'.getLast? = some u) ∧
      ((∃ x ∈ s'.state.diagnostics, x.severity = .error ∧
        ∃ n : String, x.message = s!"the value of `{n}` depends on itself") ↔ ∃ c, Circuit ds c) := by
  have hsound := start_sound files options
  obtain ⟨_, s', hact, ok, rfl, hcorrect, hcheck, hadds⟩ :=
    (hsound.ends_checkStep hf (start_coherent files options f)).exists_ok
  obtain ⟨fs, done, hdiagnostics, hgenuine, hordered, hdone⟩ := found_of_checkStep hf hact
  rw [← declarations_eq hds]
  have hsound : ∀ pre x post (n : String), s'.diagnostics = pre ++ x :: post →
      x.severity = .error → x.message = s!"the value of `{n}` depends on itself" →
      ∃ c rest, x :: post = circuitReport f c ++ rest ∧ (∀ y ∈ rest.head?, y.severity ≠ .note) ∧
        Circuit (declarations f) c ∧ c.Nodup := by
    intro pre x post n hsplit hx hmessage
    exact circuit_of_message hgenuine (hdiagnostics.symm.trans hsplit) hx hmessage
  have hcomplete : ∀ c, Circuit (declarations f) c →
      ∃ u v, [u, v] <:+: c ++ c.take 1 ∧ Backs f u v s'.diagnostics := by
    intro c hc
    obtain ⟨u, hu⟩ := List.exists_mem_of_ne_nil c hc.1
    obtain ⟨v, -, hstep⟩ := exists_next hu
    obtain ⟨d, hfile, rfl, hserved⟩ :=
      exists_served_first hadds.coherent hcorrect hcheck (hc.needs hstep).1
    exact exists_backs hcorrect hc hordered ((hdone d).2 hserved) hfile hu
  refine ⟨ok, { start files options true with state := s' }, step_of_ok hact, hsound, hcomplete,
    ?_, ?_⟩
  · rintro ⟨x, hx, herror, n, hmessage⟩
    obtain ⟨pre, post, hsplit⟩ := List.append_of_mem hx
    obtain ⟨c, -, -, -, hc, -⟩ := hsound pre x post n hsplit herror hmessage
    exact ⟨c, hc⟩
  · rintro ⟨c, hc⟩
    obtain ⟨u, v, -, c', ⟨pre, post, hsplit, -⟩, -, -, hhead, -⟩ := hcomplete c hc
    obtain ⟨rest, rfl⟩ : ∃ rest, c' = v :: rest := by
      cases c' with
      | nil => cases hhead
      | cons w rest =>
        cases hhead
        exact ⟨rest, rfl⟩
    refine ⟨.error (some (f.locate v.nameSpan)) s!"the value of `{v.name}` depends on itself", ?_,
      rfl, v.name, rfl⟩
    show _ ∈ s'.diagnostics
    rw [hsplit]
    exact List.mem_append_left _ (List.mem_append_right _ List.mem_cons_self)

/-- A file in which `a` needs itself and goes round by way of `b` and `c`, and `e` only leads to a
cycle. -/
def web : SourceFile where
  id := ⟨0⟩
  name := "web"
  content := "let a = b + a; let b = c; let c = a; let d = d; let e = a;"

/-- The declarations of the file. -/
def webDeclarations : List Declaration :=
  [⟨"a", ⟨4, 1⟩, .binary .add (.name "b" ⟨8, 1⟩) (.name "a" ⟨12, 1⟩) ⟨8, 5⟩, ⟨0, 14⟩⟩,
    ⟨"b", ⟨19, 1⟩, .name "c" ⟨23, 1⟩, ⟨15, 10⟩⟩, ⟨"c", ⟨30, 1⟩, .name "a" ⟨34, 1⟩, ⟨26, 10⟩⟩,
    ⟨"d", ⟨41, 1⟩, .name "d" ⟨45, 1⟩, ⟨37, 10⟩⟩, ⟨"e", ⟨52, 1⟩, .name "a" ⟨56, 1⟩, ⟨48, 10⟩⟩]

example : (((start [web] {} true).step (.evaluate (.check 0))).2.state.diagnostics.map
    Diagnostic.message) =
      ["the value of `a` depends on itself", "which needs the value of `c`",
        "which needs the value of `b`", "the value of `a` depends on itself",
        "the value of `d` depends on itself"] := by
  decide +kernel

/-- The circuit from `a` by way of `b` and `c` has a step that is reported. -/
theorem circuits_reported_web :
    declarations? web = some webDeclarations ∧ Circuit webDeclarations (webDeclarations.take 3) ∧
      ∃ ok s', (start [web] {} true).step (.evaluate (.check 0)) =
          (⟨.ok (.reply (.answers [⟨.check web, .ok ok⟩])), s'.state.diagnostics.length⟩, s') ∧
        ∃ u v, [u, v] <:+: webDeclarations.take 3 ++ webDeclarations.take 1 ∧
          ∃ c, HasGroup s'.state.diagnostics (circuitReport web c) ∧ Circuit webDeclarations c ∧
            c.Nodup ∧ c.head? = some v ∧ c.getLast? = some u := by
  have hread : declarations? web = some webDeclarations := by decide +kernel
  have hcircuit : Circuit webDeclarations (webDeclarations.take 3) := by decide +kernel
  obtain ⟨ok, s', hstep, -, hcomplete, -⟩ :=
    circuits_reported [web] {} 0 web webDeclarations rfl hread
  exact ⟨hread, hcircuit, ok, s', hstep, hcomplete _ hcircuit⟩

end Session

end Demand.Compiler
