import Demand.Proofs.Compiler.Bodies

/-!
# The same file in two engines

A file and a copy of it under another number are read in two engines, other files in between. The
readings of the copy are counted, and each is one reading of the file (`Pairing`). Definitions,
requests and results of the one are like those of the other if they differ by that alone
(`Definition.Like`, `Request.Like`, `LikeOutput`). Two definitions are the same in the one engine
just if those like them are the same in the other (`Definition.Like.eq_iff`), and what is reported
differs in the number of the file (`diagnostics_moved`, `cycleReport_moved`).
-/

namespace Demand

/-- The diagnostic about the file of another number. -/
def Diagnostic.moved (id : FileId) (d : Diagnostic) : Diagnostic :=
  { d with location := d.location.map fun l => ⟨id, l.span⟩ }

namespace Compiler

open Demand.Language

/-! ## Pairings -/

/-- A file and a copy of it, and for each reading of the copy which reading of the file it is. -/
structure Pairing where
  left : SourceFile
  right : SourceFile
  name_eq : left.name = right.name
  content_eq : left.content = right.content
  readings : List Nat
  increasing : readings.Pairwise (· < ·)

namespace Pairing

/-- The second pairing is of the same files and knows of further readings. -/
structure Grows (p p' : Pairing) : Prop where
  left : p'.left = p.left
  right : p'.right = p.right
  readings : p.readings <+: p'.readings

variable {p p' p'' : Pairing}

theorem Grows.refl (p : Pairing) : p.Grows p :=
  ⟨rfl, rfl, List.prefix_rfl⟩

theorem Grows.trans (h : p.Grows p') (h' : p'.Grows p'') : p.Grows p'' :=
  ⟨h'.left.trans h.left, h'.right.trans h.right, h.readings.trans h'.readings⟩

/-- The pairing with one more reading. -/
def extend (p : Pairing) (m : Nat) (hm : ∀ n ∈ p.readings, n < m) : Pairing :=
  { p with
    readings := p.readings ++ [m]
    increasing := List.pairwise_append.2 ⟨p.increasing, List.pairwise_singleton _ _, by simpa using hm⟩ }

theorem grows_extend (p : Pairing) (m : Nat) (hm : ∀ n ∈ p.readings, n < m) :
    p.Grows (p.extend m hm) :=
  ⟨rfl, rfl, List.prefix_append _ _⟩

/-- No two readings of the copy are one reading of the file. -/
theorem reading_inj {i j m : Nat} (hi : p.readings[i]? = some m) (hj : p.readings[j]? = some m) :
    i = j := by
  have hnodup : p.readings.Nodup := p.increasing.imp fun h => Nat.ne_of_lt h
  obtain ⟨hlt, -⟩ := List.getElem?_eq_some_iff.1 hi
  exact (List.getElem?_inj hlt hnodup).1 (hi.trans hj.symm)

theorem readDeclarations_eq (p : Pairing) :
    readDeclarations p.left.content = readDeclarations p.right.content := by
  rw [p.content_eq]

end Pairing

/-! ## Definitions -/

variable {p p' : Pairing}

/-- One declaration of a file and of its copy, at readings that are paired. -/
structure Definition.Like (p : Pairing) (d d' : Definition) : Prop where
  left : d.file = p.left
  right : d'.file = p.right
  declaration : d.declaration = d'.declaration
  reading : p.readings[d'.reading]? = some d.reading

namespace Definition.Like

variable {d d' e e' : Definition}

theorem mono (h : Like p d d') (hp : p.Grows p') : Like p' d d' where
  left := by rw [hp.left, h.left]
  right := by rw [hp.right, h.right]
  declaration := h.declaration
  reading := by
    obtain ⟨hlt, -⟩ := List.getElem?_eq_some_iff.1 h.reading
    rw [← h.reading]
    exact (List.prefix_iff_getElem?.1 hp.readings _ hlt).trans
      (List.getElem?_eq_getElem hlt).symm

theorem name_eq (h : Like p d d') : d.name = d'.name :=
  congrArg Declaration.name h.declaration

/-- Definitions are one just if the definitions like them are. -/
theorem eq_iff (h : Like p d d') (h' : Like p e e') : d = e ↔ d' = e' := by
  constructor
  · rintro rfl
    have hreading : d'.reading = e'.reading := p.reading_inj h.reading h'.reading
    have hdeclaration := h.declaration.symm.trans h'.declaration
    have hfile := h.right.trans h'.right.symm
    cases d'
    cases e'
    simp_all
  · rintro rfl
    have hreading : d.reading = e.reading :=
      Option.some.inj (h.reading.symm.trans h'.reading)
    have hdeclaration := h.declaration.trans h'.declaration.symm
    have hfile := h.left.trans h'.left.symm
    cases d
    cases e
    simp_all

theorem location_eq (h : Like p d d') :
    d.location = ⟨p.left.id, d'.location.span⟩ := by
  rw [Definition.location, Definition.location, h.left, h.declaration]
  rfl

end Definition.Like

theorem forall₂_like_mono {ds ds' : List Definition} (h : List.Forall₂ (Definition.Like p) ds ds')
    (hp : p.Grows p') : List.Forall₂ (Definition.Like p') ds ds' :=
  h.imp fun _ _ hd => hd.mono hp

theorem file_of_forall₂_like {ds ds' : List Definition}
    (h : List.Forall₂ (Definition.Like p) ds ds') : ∀ d ∈ ds, d.file = p.left := by
  induction h with
  | nil => simp
  | cons hd _ ih => exact List.forall_mem_cons.2 ⟨hd.left, ih⟩

/-- The first definition of a name is like the first of the name in the copy. -/
theorem find?_like {ds ds' : List Definition} (h : List.Forall₂ (Definition.Like p) ds ds')
    (name : String) :
    Option.Rel (Definition.Like p) (Definition.find? ds name) (Definition.find? ds' name) := by
  unfold Definition.find?
  induction h with
  | nil => exact .none
  | @cons d d' ds ds' hd _ ih =>
    rw [List.find?_cons, List.find?_cons, hd.name_eq]
    by_cases hname : d'.name = name
    · simpa [hname] using Option.Rel.some hd
    · simpa [hname] using ih

/-! ## Requests and results -/

/-- A request about a file and the same about its copy. -/
inductive Request.Like (p : Pairing) : Request → Request → Prop
  | parseModule : Like p (.parseModule p.left) (.parseModule p.right)
  | lookup (name : String) : Like p (.lookup p.left name) (.lookup p.right name)
  | value {d d' : Definition} : d.Like p d' → Like p (.value d) (.value d')
  | check : Like p (.check p.left) (.check p.right)
  | emit : Like p (.emit p.left) (.emit p.right)

namespace Request.Like

variable {r r' q q' : Request}

theorem mono (h : Like p r r') (hp : p.Grows p') : Like p' r r' := by
  cases h with
  | parseModule =>
    rw [← hp.left, ← hp.right]
    exact .parseModule
  | lookup name =>
    rw [← hp.left, ← hp.right]
    exact .lookup name
  | value hd => exact .value (hd.mono hp)
  | check =>
    rw [← hp.left, ← hp.right]
    exact .check
  | emit =>
    rw [← hp.left, ← hp.right]
    exact .emit

theorem file_left (h : Like p r r') : r.file = p.left := by
  cases h with
  | value hd => exact hd.left
  | parseModule | lookup | check | emit => rfl

theorem file_right (h : Like p r r') : r'.file = p.right := by
  cases h with
  | value hd => exact hd.right
  | parseModule | lookup | check | emit => rfl

theorem inEngine_eq (h : Like p r r') : family.inEngine r = family.inEngine r' := by
  cases h <;> rfl

theorem eq_iff (h : Like p r r') (h' : Like p q q') : r = q ↔ r' = q' := by
  cases h with
  | value hd =>
    cases h' with
    | value he => simpa using hd.eq_iff he
    | parseModule | lookup | check | emit => simp
  | parseModule => cases h' <;> simp
  | lookup name => cases h' <;> simp
  | check => cases h' <;> simp
  | emit => cases h' <;> simp

theorem location_eq (h : Like p r r') : r.location = ⟨p.left.id, r'.location.span⟩ := by
  cases h with
  | value hd => exact hd.location_eq
  | parseModule | lookup | check | emit => rfl

theorem text_eq (h : Like p r r') : r.text = r'.text := by
  cases h with
  | @value d e hd =>
    show s!"{Kind.value.name}({d.name})" = s!"{Kind.value.name}({e.name})"
    rw [hd.name_eq]
  | parseModule | lookup | check | emit =>
    unfold Request.text
    simp only [p.name_eq, Request.kind]

theorem cycleMessage_eq (h : Like p r r') : r.cycleMessage = r'.cycleMessage := by
  cases h with
  | value hd => rw [Request.cycleMessage, Request.cycleMessage, hd.name_eq]
  | parseModule | lookup | check | emit => rfl

theorem stepMessage_eq (h : Like p r r') : r.stepMessage = r'.stepMessage := by
  have htext := h.text_eq
  cases h with
  | @value d e hd =>
    show s!"which needs the value of `{d.name}`" = s!"which needs the value of `{e.name}`"
    rw [hd.name_eq]
  | parseModule | lookup | check | emit => exact congrArg defaultStepMessage htext

theorem cycleError_eq (h : Like p r r') :
    family.cycleError r = (family.cycleError r').moved p.left.id := by
  show Diagnostic.error (some r.location) r.cycleMessage = _
  rw [h.location_eq, h.cycleMessage_eq]
  rfl

theorem cycleStep_eq (h : Like p r r') :
    family.cycleStep r = (family.cycleStep r').moved p.left.id := by
  show Diagnostic.note (some r.location) r.stepMessage = _
  rw [h.location_eq, h.stepMessage_eq]
  rfl

end Request.Like

/-- Results of a request and of one like it. -/
def LikeOutput (p : Pairing) : (r r' : Request) → r.Output → r'.Output → Prop
  | .parseModule _, .parseModule _, ds?, ds?' =>
    Option.Rel (List.Forall₂ (Definition.Like p)) ds? ds?'
  | .lookup .., .lookup .., d?, d?' => Option.Rel (Definition.Like p) d? d?'
  | .value _, .value _, v?, v?' => v? = v?'
  | .check _, .check _, ok, ok' => ok = ok'
  | .emit _, .emit _, code?, code?' => code? = code?'
  | _, _, _, _ => False

theorem LikeOutput.mono {r r' : Request} {out : r.Output} {out' : r'.Output}
    (h : LikeOutput p r r' out out') (hp : p.Grows p') : LikeOutput p' r r' out out' := by
  cases r with
  | parseModule =>
    cases r' with
    | parseModule =>
      cases h with
      | none => exact .none
      | some hds => exact .some (forall₂_like_mono hds hp)
    | lookup | value | check | emit => exact h.elim
  | lookup =>
    cases r' with
    | lookup =>
      cases h with
      | none => exact .none
      | some hd => exact .some (hd.mono hp)
    | parseModule | value | check | emit => exact h.elim
  | value => cases r' <;> exact h
  | check => cases r' <;> exact h
  | emit => cases r' <;> exact h

/-- What asking for a request gave and what asking for one like it gave. -/
def LikeOutcome (p : Pairing) (r r' : Request) : Outcome family r → Outcome family r' → Prop
  | .ok out, .ok out' => LikeOutput p r r' out out'
  | .error c, .error c' => Request.Like p c.request c'.request
  | _, _ => False

theorem LikeOutcome.mono {r r' : Request} {o : Outcome family r} {o' : Outcome family r'}
    (h : LikeOutcome p r r' o o') (hp : p.Grows p') : LikeOutcome p' r r' o o' := by
  cases o with
  | ok out =>
    cases o' with
    | ok out' => exact LikeOutput.mono h hp
    | error c' => exact h.elim
  | error c =>
    cases o' with
    | ok out' => exact h.elim
    | error c' => exact Request.Like.mono h hp

/-- The defaults are alike too. -/
theorem LikeOutcome.getD {r r' : Request} {o : Outcome family r} {o' : Outcome family r'}
    (h : LikeOutcome p r r' o o') {d : r.Output} {d' : r'.Output} (hd : LikeOutput p r r' d d') :
    LikeOutput p r r' (o.getD d) (o'.getD d') := by
  cases o with
  | ok out =>
    cases o' with
    | ok out' => exact h
    | error c' => exact h.elim
  | error c =>
    cases o' with
    | ok out' => exact h.elim
    | error c' => exact hd

/-! ## Reports -/

/-- A problem of a file is reported as that of its copy, at another place. -/
theorem diagnostics_moved (p : Pairing) (problem : Problem) :
    problem.diagnostics p.left =
      (problem.diagnostics p.right).map (Diagnostic.moved p.left.id) := by
  have hend : p.left.endSpan = p.right.endSpan := by
    rw [SourceFile.endSpan, SourceFile.endSpan, p.content_eq]
  cases problem with
  | lexical e =>
    cases hc : e.cause? <;>
      simp [Problem.diagnostics, hc, Diagnostic.moved, Diagnostic.error, Diagnostic.note,
        SourceFile.locate]
  | grammatical e =>
    have hspan : e.span p.left = e.span p.right := by
      unfold ParseError.span
      rw [hend]
    cases hn : e.note <;>
      simp [Problem.diagnostics, hn, hspan, Diagnostic.moved, Diagnostic.error, Diagnostic.note,
        SourceFile.locate]
  | unknownName | overflow | duplicate => rfl

section Stacks

variable {stack stack' : List Request} {r r' : Request}

theorem mem_iff_of_like (h : List.Forall₂ (Request.Like p) stack stack') (hr : r.Like p r') :
    r ∈ stack ↔ r' ∈ stack' := by
  induction h with
  | nil => simp
  | @cons q q' stack stack' hq _ ih => rw [List.mem_cons, List.mem_cons, ih, hr.eq_iff hq]

/-- A cycle is reported as in the copy, at other places. -/
theorem cycleReport_moved (h : List.Forall₂ (Request.Like p) stack stack') (hr : r.Like p r') :
    Eval.cycleReport (F := family) stack r =
      (Eval.cycleReport (F := family) stack' r').map (Diagnostic.moved p.left.id) := by
  have hsteps : (stack.takeWhile fun q => q ≠ r).map family.cycleStep =
      ((stack'.takeWhile fun q => q ≠ r').map family.cycleStep).map
        (Diagnostic.moved p.left.id) := by
    induction h with
    | nil => rfl
    | @cons q q' stack stack' hq _ ih =>
      have heq := hq.eq_iff hr
      by_cases hqr : q = r
      · simp [hqr, heq.1 hqr]
      · have hqr' : q' ≠ r' := fun h => hqr (heq.2 h)
        rw [List.takeWhile_cons_of_pos (by simpa using hqr),
          List.takeWhile_cons_of_pos (by simpa using hqr')]
        simp only [List.map_cons, ih, hq.cycleStep_eq]
  rw [Eval.cycleReport, Eval.cycleReport, List.map_cons, hr.cycleError_eq]
  exact congrArg _ hsteps

end Stacks

end Compiler

end Demand
