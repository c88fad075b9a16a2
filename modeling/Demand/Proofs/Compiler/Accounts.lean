import Demand.Proofs.Compiler.Answers
import Demand.Proofs.Compiler.Problems
import Mathlib.Data.List.Perm.Basic

/-!
# Accounts of what was reported

A request reports what is wrong with its own part of a file when it is computed, and nothing when it
is served. So what was reported about a file are the problems of the requests that are served by now
and, as far as they got, those of the active ones (`Accounted`). Here is how the account changes
with what an evaluation can do: a finding is reported (`Accounted.find`), a request is done
(`Accounted.leaves`), and steps follow on each other (`Adds.trans`).
-/

namespace Demand.Compiler

open Demand.Language

/-- What is wrong with the part of a file that a request looks at itself. -/
noncomputable def Request.problems : Request → List Problem
  | parseModule f =>
    match readDeclarations f.content with
    | .error p => [p]
    | .ok _ => []
  | value d => exprProblems (declarations d.file) d.declaration.value
  | check f => duplicates (declarations f)
  | lookup .. | emit _ => []

/-! ## What is served -/

/-- The definition is the first of its name in the reading of the file. -/
def First (f : SourceFile) (s : State family) (d : Definition) : Prop :=
  ∃ ds, s.served? (.parseModule f) = some (some ds) ∧ Definition.find? ds d.name = some d

/-- What is served with a result: a definition that was looked up and one with a value are the first
of their names, and after a check all first definitions have been looked at. -/
def Backed (f : SourceFile) (s : State family) : (r : Request) → r.Output → Prop
  | .lookup .., d? => ∀ d ∈ d?, First f s d
  | .value d, _ => First f s d
  | .check _, _ => (s.served? (.parseModule f)).isSome ∧
      ∀ d, First f s d → (s.served? (.value d)).isSome
  | .parseModule _, _ | .emit _, _ => True

/-- What is served is about the file and served with what it needs. -/
def Coherent (f : SourceFile) (s : State family) : Prop :=
  ∀ r out, s.served? r = some out → r.file = f ∧ Backed f s r out

/-- What is served stays served. -/
def Grows (s s' : State family) : Prop :=
  ∀ q v, s.served? q = some v → s'.served? q = some v

section Served

variable {f : SourceFile} {s s' : State family}

theorem First.mono {d : Definition} (h : First f s d) (hgrows : Grows s s') : First f s' d := by
  obtain ⟨ds, hds, hfind⟩ := h
  exact ⟨ds, hgrows _ _ hds, hfind⟩

theorem Backed.mono {r : Request} {out : Request.Output r} (h : Backed f s r out)
    (hgrows : Grows s s') : Backed f s' r out := by
  cases r with
  | lookup g n => exact fun d hd => (h d hd).mono hgrows
  | value d => exact First.mono h hgrows
  | check g =>
    obtain ⟨hread, hvalues⟩ := h
    obtain ⟨ds?, hds?⟩ := Option.isSome_iff_exists.1 hread
    refine ⟨Option.isSome_iff_exists.2 ⟨ds?, hgrows _ _ hds?⟩, ?_⟩
    rintro d ⟨ds, hds, hfind⟩
    -- the file was read before, so the reading is still the same
    have hsame : ds? = some ds := Option.some.inj ((hgrows _ _ hds?).symm.trans hds)
    rw [hsame] at hds?
    obtain ⟨v, hv⟩ := Option.isSome_iff_exists.1 (hvalues d ⟨ds, hds?, hfind⟩)
    exact Option.isSome_iff_exists.2 ⟨v, hgrows _ _ hv⟩
  | parseModule g => trivial
  | emit g => trivial

theorem Coherent.congr (h : Coherent f s) (hserved : ∀ q, s'.served? q = s.served? q) :
    Coherent f s' := by
  intro r out hr
  obtain ⟨hfile, hbacked⟩ := h r out ((hserved r).symm.trans hr)
  exact ⟨hfile, hbacked.mono fun q v hq => (hserved q).trans hq⟩

/-- What is served stays served when a result is kept for a request that had none. -/
theorem grows_of_leaves {r : Request} {out : Request.Output r} (h : Leaves rules r out s s')
    (hnone : s.served? r = none) : Grows s s' := by
  intro q v hq
  have hne : q ≠ r := by
    rintro rfl
    rw [hnone] at hq
    cases hq
  rw [h.served?_of_ne lawful hne, hq]

theorem Coherent.leaves {r : Request} {out : Request.Output r} (h : Coherent f s)
    (hout : Leaves rules r out s s') (hnone : s.served? r = none) (hfile : r.file = f)
    (hbacked : Backed f s r out) : Coherent f s' := by
  have hgrows := grows_of_leaves hout hnone
  intro q v hq
  by_cases hqr : q = r
  · subst hqr
    rw [hout.served?_self lawful hq]
    exact ⟨hfile, hbacked.mono hgrows⟩
  · obtain ⟨hfile', hbacked'⟩ := h q v ((hout.served?_of_ne lawful hqr).symm.trans hq)
    exact ⟨hfile', hbacked'.mono hgrows⟩

end Served

/-! ## What is reported -/

/-- What was reported are these findings. Their problems are those of the requests that are done,
which are just the requests that are served, and what the active ones have reported so far. -/
structure Account (f : SourceFile) (fs : List Finding) (done : List Request)
    (begun : List Problem) (s : State family) : Prop where
  diagnostics : s.diagnostics = fs.flatMap (Finding.diagnostics f)
  problems : (problems fs).Perm (done.flatMap Request.problems ++ begun)
  nodup : done.Nodup
  mem_done : ∀ q, q ∈ done ↔ (s.served? q).isSome
  cycles : ∀ d via, .cycle d via ∈ fs → First f s d ∧ ∀ v, ¬ d.Means v

def Accounted (f : SourceFile) (begun : List Problem) (s : State family) : Prop :=
  ∃ fs done, Account f fs done begun s

/-- On the way from the first state to the second, these problems are reported besides those of the
requests that are computed. -/
structure Adds (f : SourceFile) (ps : List Problem) (s s' : State family) : Prop where
  coherent : Coherent f s'
  grows : Grows s s'
  accounted : ∀ begun, Accounted f begun s → Accounted f (begun ++ ps) s'

section Reported

variable {f : SourceFile} {ps qs begun : List Problem} {s₀ s s' : State family}

theorem Accounted.congr (h : Accounted f begun s) (hserved : ∀ q, s'.served? q = s.served? q)
    (hdiagnostics : s'.diagnostics = s.diagnostics) : Accounted f begun s' := by
  obtain ⟨fs, done, h⟩ := h
  refine ⟨fs, done, hdiagnostics.trans h.diagnostics, h.problems, h.nodup, ?_, ?_⟩
  · intro q
    rw [hserved, h.mem_done]
  · intro d via hcycle
    exact (h.cycles d via hcycle).imp_left fun hd => hd.mono fun q v hq => (hserved q).trans hq

theorem Accounted.perm (h : Accounted f ps s) (hperm : ps.Perm qs) : Accounted f qs s := by
  obtain ⟨fs, done, h⟩ := h
  exact ⟨fs, done, { h with problems := h.problems.trans (hperm.append_left _) }⟩

/-- One more finding is reported. -/
theorem Accounted.find (h : Accounted f begun s) (x : Finding)
    (hx : ∀ d via, x = .cycle d via → First f s d ∧ ∀ v, ¬ d.Means v)
    (hserved : ∀ q, s'.served? q = s.served? q)
    (hdiagnostics : s'.diagnostics = s.diagnostics ++ x.diagnostics f) :
    Accounted f (begun ++ x.problem?.toList) s' := by
  obtain ⟨fs, done, h⟩ := h
  have hgrows : Grows s s' := fun q v hq => (hserved q).trans hq
  refine ⟨fs ++ [x], done, ?_, ?_, h.nodup, ?_, ?_⟩
  · rw [hdiagnostics, h.diagnostics, List.flatMap_append, List.flatMap_singleton]
  · have hsnoc : problems (fs ++ [x]) = problems fs ++ x.problem?.toList := by
      rw [problems, problems, List.filterMap_append]
      cases hp : x.problem? <;> simp [hp]
    rw [hsnoc, ← List.append_assoc]
    exact h.problems.append_right _
  · intro q
    rw [hserved, h.mem_done]
  · intro d via hcycle
    rcases List.mem_append.1 hcycle with hcycle | hcycle
    · exact (h.cycles d via hcycle).imp_left fun hd => hd.mono hgrows
    · exact (hx d via (List.mem_singleton.1 hcycle).symm).imp_left fun hd => hd.mono hgrows

/-- A request that ends is done, and its problems are all reported. -/
theorem Accounted.leaves {r : Request} {out : Request.Output r}
    (h : Accounted f (begun ++ r.problems) s) (hout : Leaves rules r out s s')
    (hkept : family.inEngine r = true) (hnone : s.served? r = none) : Accounted f begun s' := by
  obtain ⟨fs, done, h⟩ := h
  have hgrows := grows_of_leaves hout hnone
  have hself : s'.served? r = some out := by
    rw [State.served?, if_pos hkept, hout.result_self hkept]
  refine ⟨fs, r :: done, hout.diagnostics.trans h.diagnostics, ?_, ?_, ?_, ?_⟩
  · refine h.problems.trans ?_
    rw [List.flatMap_cons, List.append_assoc, ← List.append_assoc]
    exact List.perm_append_comm
  · refine List.nodup_cons.2 ⟨?_, h.nodup⟩
    rw [h.mem_done, hnone]
    exact Bool.false_ne_true
  · intro q
    by_cases hq : q = r
    · subst hq
      simp [hself]
    · rw [List.mem_cons, h.mem_done, hout.served?_of_ne lawful hq]
      simp [hq]
  · intro d via hcycle
    exact (h.cycles d via hcycle).imp_left fun hd => hd.mono hgrows

namespace Adds

theorem start (h : Coherent f s) : Adds f [] s s :=
  ⟨h, fun _ _ hq => hq, fun begun hbegun => by rwa [List.append_nil]⟩

theorem trans (h : Adds f ps s₀ s) (h' : Adds f qs s s') : Adds f (ps ++ qs) s₀ s' := by
  refine ⟨h'.coherent, fun q v hq => h'.grows q v (h.grows q v hq), fun begun hbegun => ?_⟩
  rw [← List.append_assoc]
  exact h'.accounted _ (h.accounted begun hbegun)

theorem perm (h : Adds f ps s s') (hperm : ps.Perm qs) : Adds f qs s s' :=
  ⟨h.coherent, h.grows, fun begun hbegun =>
    (h.accounted begun hbegun).perm (hperm.append_left begun)⟩

/-- Steps that report nothing. -/
theorem still (h : Adds f ps s₀ s) (hserved : ∀ q, s'.served? q = s.served? q)
    (hdiagnostics : s'.diagnostics = s.diagnostics) : Adds f ps s₀ s' :=
  ⟨h.coherent.congr hserved, fun q v hq => (hserved q).trans (h.grows q v hq),
    fun begun hbegun => (h.accounted begun hbegun).congr hserved hdiagnostics⟩

end Adds

end Reported

end Demand.Compiler
