import Demand.Proofs.Compiler.Answers
import Mathlib.Data.List.Forall2

/-!
# Every body computes what its request should give

One lemma for each function of the compiler, by the recursion of the function, under the assumption
that what it asks for is answered as it should be. Together they are a discipline without stops
(`compiling`): every request is answered, with what it should give, or with an error if it is a
value that leads to itself.
-/

namespace Demand.Compiler

open Demand.Language

variable {limit n : Nat} {stack : List Request} {s : State family}

/-! ## Reading -/

theorem runs_parseModule (hs : Sits stack s) (f : SourceFile) :
    Runs limit n stack (parseModule f) s fun ds? s' =>
      Sits stack s' ∧ Meets (.parseModule f) ds? := by
  refine (runs_say hs _ _).bind fun _ s₁ hs₁ => ?_
  cases hread : readDeclarations f.content with
  | error p =>
    refine (runs_report hs₁ f p).bind fun _ s₂ hs₂ => ⟨hs₂, ?_, ?_⟩
    · simp [declarations?, hread, Except.toOption]
    · simp
  | ok ds =>
    refine ⟨hs₁.still (@Still.visit family s₁ (fun w => ⟨w.readings + 1⟩) fun _ _ => rfl), ?_, ?_⟩
    · simp [declarations?, hread, Except.toOption, Function.comp_def]
    · simp

/-- The definition of a name has the declaration of the name. -/
theorem map_find? (ds : List Definition) (name : String) :
    (Definition.find? ds name).map Definition.declaration =
      findDeclaration (ds.map Definition.declaration) name := by
  unfold Definition.find? findDeclaration
  rw [List.find?_map]
  rfl

/-- A name that is declared has a first definition. -/
theorem exists_find? {ds : List Definition} {d : Definition} (hd : d ∈ ds) :
    ∃ first, Definition.find? ds d.name = some first :=
  Option.isSome_iff_exists.1 (List.find?_isSome.2 ⟨d, hd, by simp⟩)

theorem runs_lookupBody (hs : Sits stack s) {f : SourceFile} {name : String}
    (hroom : Room limit n stack (.parseModule f)) :
    Runs limit n stack (lookup f name) s fun d? s' =>
      Sits stack s' ∧ Meets (.lookup f name) d? := by
  refine (runs_parse hs hroom).bind ?_
  rintro ds? s₁ ⟨hs₁, hds, hfile⟩
  refine ⟨hs₁, ?_, ?_⟩
  · cases ds? with
    | none =>
      rw [declarations, ← hds]
      rfl
    | some ds =>
      rw [declarations_eq hds.symm]
      exact map_find? ds name
  · intro d hd
    obtain ⟨ds, hmem, hfind⟩ := Option.mem_bind_iff.1 hd
    exact hfile ds hmem d (List.mem_of_find?_eq_some hfind)

/-! ## Values -/

theorem runs_settle (hs : Sits stack s) (f : SourceFile) (span : Span) (m : Int) :
    Runs limit n stack (settle f span m) s fun v? s' =>
      Sits stack s' ∧ ∀ v, v? = some v ↔ v = m ∧ Fits m := by
  unfold settle
  cases hm : fitting m with
  | some w => exact ⟨hs, fun v => by rw [← hm, fitting_eq_some_iff]⟩
  | none =>
    refine (runs_report hs f _).bind fun _ s₁ hs₁ => ⟨hs₁, fun v => ?_⟩
    rw [← hm, fitting_eq_some_iff]

/-- A name in the value of a definition. The definition it denotes was looked up just before its
value is asked for. -/
theorem runs_name {d : Definition} (hroom : ∀ q, Asks (.value d) q → Room limit n stack q)
    {m : String} (hm : m ∈ names d.declaration.value) (span : Span) (hs : Sits stack s) :
    Runs limit n stack (fold d.file (.name m span)) s fun v? s' =>
      Sits stack s' ∧ ∀ v, v? = some v ↔ Means (declarations d.file) (.name m span) v := by
  simp only [means_name_iff]
  refine (runs_lookup hs (hroom _ (.value_lookup d m))).bind ?_
  rintro d? s₁ ⟨hs₁, ⟨hfind, hfile⟩, hserved⟩
  rw [← hfind]
  cases d? with
  | none => exact (runs_report hs₁ d.file _).bind fun _ s₂ hs₂ => ⟨hs₂, by simp⟩
  | some d' =>
    have hf : d'.file = d.file := hfile d' rfl
    have hname : d'.declaration.name = m := by simpa using List.find?_some hfind.symm
    refine (runs_value hs₁ (.inr ?_) (hroom _ (.value_value hf hm hfind.symm))).mono ?_
    · rw [Definition.name, hf, hname]
      exact hserved
    rintro v? s₂ ⟨hs₂, hv⟩
    refine ⟨hs₂, fun v => (hv v).trans ?_⟩
    rw [Definition.Means, hf]
    simp

/-- A part of the value of a definition: the names in the part are names in the value. -/
theorem runs_fold {d : Definition} (hroom : ∀ q, Asks (.value d) q → Room limit n stack q)
    (e : Expr) (he : ∀ m ∈ names e, m ∈ names d.declaration.value) (hs : Sits stack s) :
    Runs limit n stack (fold d.file e) s fun v? s' =>
      Sits stack s' ∧ ∀ v, v? = some v ↔ Means (declarations d.file) e v := by
  induction e generalizing s with
  | integer v span =>
    refine ⟨hs, fun w => ⟨fun h => ?_, fun h => ?_⟩⟩
    · cases h
      exact .integer v span
    · cases h
      rfl
  | name m span => exact runs_name hroom (he m List.mem_cons_self) span hs
  | negate e span ih =>
    refine (ih he hs).bind fun v? s₁ ⟨hs₁, hv⟩ => ?_
    simp only [means_negate_iff, ← hv]
    cases v? with
    | none => exact ⟨hs₁, by simp⟩
    | some v =>
      refine (runs_settle hs₁ d.file span (-v)).mono fun w? s₂ ⟨hs₂, hw⟩ => ⟨hs₂, fun w => ?_⟩
      simp [hw]
  | binary op l r span ihl ihr =>
    have hl : ∀ m ∈ names l, m ∈ names d.declaration.value := fun m hm =>
      he m (List.mem_append_left _ hm)
    have hr : ∀ m ∈ names r, m ∈ names d.declaration.value := fun m hm =>
      he m (List.mem_append_right _ hm)
    -- both operands are looked at, also if the first has no value
    refine (ihl hl hs).bind fun a? s₁ ⟨hs₁, ha⟩ => ?_
    refine (ihr hr hs₁).bind fun b? s₂ ⟨hs₂, hb⟩ => ?_
    simp only [means_binary_iff, ← ha, ← hb]
    cases a? with
    | none => exact ⟨hs₂, by simp⟩
    | some a =>
      cases b? with
      | none => exact ⟨hs₂, by simp⟩
      | some b =>
        refine (runs_settle hs₂ d.file span (op.apply a b)).mono fun w? s₃ ⟨hs₃, hw⟩ =>
          ⟨hs₃, fun w => ?_⟩
        simp [hw]

theorem runs_valueBody {d : Definition} (hroom : ∀ q, Asks (.value d) q → Room limit n stack q)
    (hs : Sits stack s) :
    Runs limit n stack (value d) s fun v? s' => Sits stack s' ∧ Meets (.value d) v? :=
  (runs_say hs _ _).bind fun _ _ hs₁ =>
    runs_fold hroom d.declaration.value (fun _ hm => hm) hs₁

/-! ## Checks -/

/-- The definition is the first of its name among `all` and has a value. -/
def Definition.Passes (all : List Definition) (d : Definition) : Prop :=
  (∀ first, Definition.find? all d.name = some first → first = d) ∧ ∃ v, d.Means v

theorem runs_checkAll (hnone : values stack = []) {f : SourceFile} {all : List Definition}
    (ds : List Definition) (hroom : ∀ d ∈ ds, Room limit n stack (.value d)) (hs : Sits stack s) :
    Runs limit n stack (checkAll f all ds) s fun ok s' => Sits stack s' ∧
      (ok = true ↔ ∀ d ∈ ds, d.Passes all) := by
  induction ds generalizing s with
  | nil => exact ⟨hs, by simp⟩
  | cons d ds ih =>
    have hrest : ∀ d ∈ ds, Room limit n stack (.value d) := fun d hd =>
      hroom d (List.mem_cons_of_mem _ hd)
    have htail : ∀ (ok : Bool) (s₁ : State family), Sits stack s₁ →
        (ok = true ↔ d.Passes all) →
        Runs limit n stack (do return ok && (← checkAll f all ds)) s₁ fun ok s' => Sits stack s' ∧
          (ok = true ↔ ∀ d' ∈ d :: ds, d'.Passes all) := by
      intro ok s₁ hs₁ hok
      refine (ih hrest hs₁).bind fun rest s₂ ⟨hs₂, hok'⟩ => ⟨hs₂, ?_⟩
      rw [Bool.and_eq_true, hok, hok', List.forall_mem_cons]
    rw [checkAll]
    cases hdup : (Definition.find? all d.name).filter fun first => first ≠ d with
    | some first =>
      obtain ⟨hfind, hne⟩ := Option.filter_eq_some_iff.1 hdup
      refine (runs_report hs f _).bind fun _ s₁ hs₁ => ?_
      refine htail false s₁ hs₁ ⟨fun h => (by cases h), fun h => ?_⟩
      exact absurd (h.1 first hfind) (of_decide_eq_true hne)
    | none =>
      have hself : ∀ first, Definition.find? all d.name = some first → first = d := by
        simpa using Option.filter_eq_none_iff.1 hdup
      refine (runs_value hs (.inl hnone) (hroom d List.mem_cons_self)).bind ?_
      rintro v? s₁ ⟨hs₁, hv⟩
      refine htail v?.isSome s₁ hs₁ ?_
      rw [Option.isSome_iff_exists, exists_congr hv]
      exact ⟨fun h => ⟨hself, h⟩, And.right⟩

/-- Each definition is the first of its name just if no name is declared twice. -/
theorem nodup_names_iff {ds : List Definition} (hds : ds.Nodup) :
    (ds.map Definition.name).Nodup ↔
      ∀ d ∈ ds, ∀ first, Definition.find? ds d.name = some first → first = d := by
  constructor
  · intro hnames d hd first hfirst
    have hname : first.name = d.name := by simpa using List.find?_some hfirst
    exact List.inj_on_of_nodup_map hnames (List.mem_of_find?_eq_some hfirst) hd hname
  · intro hfirst
    refine List.Nodup.map_on (fun d hd d' hd' hname => ?_) hds
    obtain ⟨first, hfind⟩ := exists_find? hd
    rw [← hfirst d hd first hfind]
    rw [hname] at hfind
    exact hfirst d' hd' first hfind

theorem valid_iff_passes {f : SourceFile} {ds : List Definition}
    (hds : declarations? f = some (ds.map Definition.declaration)) (hfile : ∀ d ∈ ds, d.file = f) :
    Valid f ↔ ∀ d ∈ ds, d.Passes ds := by
  have hnodup : ds.Nodup := .of_map _ (nodup_of_declarations? hds)
  have hmeans : ∀ d ∈ ds, ∀ v,
      Means (ds.map Definition.declaration) d.declaration.value v ↔ d.Means v := by
    intro d hd v
    rw [Definition.Means, hfile d hd, declarations_eq hds]
  have hvalid : Valid f ↔ (ds.map Definition.name).Nodup ∧
      ∀ d ∈ ds, ∃ v, Means (ds.map Definition.declaration) d.declaration.value v := by
    unfold Valid
    simp only [hds, Option.some.injEq, exists_eq_left', List.map_map, List.forall_mem_map]
    rfl
  rw [hvalid, nodup_names_iff hnodup, ← forall₂_and]
  exact forall₂_congr fun d hd => and_congr_right fun _ => exists_congr (hmeans d hd)

theorem runs_checkBody {f : SourceFile} (hnone : values stack = [])
    (hroom : ∀ q, Asks (.check f) q → Room limit n stack q) (hs : Sits stack s) :
    Runs limit n stack (check f) s fun ok s' => Sits stack s' ∧ Meets (.check f) ok := by
  refine (runs_say hs _ _).bind fun _ s₁ hs₁ => ?_
  refine (runs_parse hs₁ (hroom _ (.check_parse f))).bind ?_
  rintro ds? s₂ ⟨hs₂, hds, hfile⟩
  cases ds? with
  | none =>
    refine ⟨hs₂, fun h => (by cases h), fun ⟨ds, h, _⟩ => ?_⟩
    rw [← hds] at h
    cases h
  | some ds =>
    have hfile := hfile ds rfl
    refine (runs_checkAll hnone ds (fun d hd => hroom _ (.check_value (hfile d hd))) hs₂).mono ?_
    rintro ok s₃ ⟨hs₃, hok⟩
    exact ⟨hs₃, hok.trans (valid_iff_passes hds.symm hfile).symm⟩

/-! ## Code -/

theorem runs_emitAll (hnone : values stack = []) (ds : List Definition)
    (hroom : ∀ d ∈ ds, Room limit n stack (.value d)) (hs : Sits stack s) :
    Runs limit n stack (emitAll ds) s fun code? s' => Sits stack s' ∧
      ∀ code, code? = some code ↔ ∃ vs, List.Forall₂ Definition.Means ds vs ∧
        code = String.join (List.zipWith globalLine ds vs) := by
  induction ds generalizing s with
  | nil =>
    refine ⟨hs, fun code => ?_⟩
    simp [String.join, eq_comm]
  | cons d ds ih =>
    have hrest : ∀ d ∈ ds, Room limit n stack (.value d) := fun d hd =>
      hroom d (List.mem_cons_of_mem _ hd)
    refine (runs_value hs (.inl hnone) (hroom d List.mem_cons_self)).bind ?_
    rintro v? s₁ ⟨hs₁, hv⟩
    cases v? with
    | none =>
      refine ⟨hs₁, fun code => ⟨fun h => (by cases h), ?_⟩⟩
      rintro ⟨vs, hvs, -⟩
      cases hvs with
      | cons hd _ => exact absurd ((hv _).2 hd) (by simp)
    | some v =>
      refine (ih hrest hs₁).bind fun rest? s₂ ⟨hs₂, hrest?⟩ => ⟨hs₂, ?_⟩
      intro code
      rw [Option.map_eq_some_iff]
      constructor
      · rintro ⟨rest, hr, rfl⟩
        obtain ⟨vs, hvs, rfl⟩ := (hrest? rest).1 hr
        refine ⟨v :: vs, .cons ((hv v).1 rfl) hvs, ?_⟩
        simp
      · rintro ⟨vs, hvs, rfl⟩
        cases hvs with
        | @cons _ w _ vs hd hvs =>
          refine ⟨_, (hrest? _).2 ⟨vs, hvs, rfl⟩, ?_⟩
          rw [((hv v).1 rfl).unique hd]
          simp

theorem code_iff {f : SourceFile} {ds : List Definition}
    (hds : declarations? f = some (ds.map Definition.declaration)) (hfile : ∀ d ∈ ds, d.file = f)
    (code : String) :
    Code f code ↔ ∃ vs, List.Forall₂ Definition.Means ds vs ∧
      code = s!"; ModuleID = '{f.name}'\n" ++ String.join (List.zipWith globalLine ds vs) := by
  have hmeans : ∀ vs, List.Forall₂ (fun d v => Means (ds.map Definition.declaration) d.value v)
      (ds.map Definition.declaration) vs ↔ List.Forall₂ Definition.Means ds vs := by
    intro vs
    have hpair : (fun (d : Definition) v =>
        d.file = f ∧ Means (ds.map Definition.declaration) d.declaration.value v) =
          fun d v => d.file = f ∧ d.Means v := by
      funext d v
      refine propext (and_congr_right fun hd => ?_)
      rw [Definition.Means, hd, declarations_eq hds]
    rw [List.forall₂_map_left_iff, ← and_iff_right (b := List.Forall₂ _ ds vs) hfile,
      ← List.forall₂_and_left, hpair, List.forall₂_and_left, and_iff_right hfile]
  have hlines : ∀ vs, List.zipWith (fun d v => s!"@{d.name} = global i64 {v}\n")
      (ds.map Definition.declaration) vs = List.zipWith globalLine ds vs := by
    intro vs
    rw [List.zipWith_map_left]
    rfl
  constructor
  · rintro @⟨ds', vs, hds', hvs⟩
    rw [hds] at hds'
    cases hds'
    exact ⟨vs, (hmeans vs).1 hvs, by rw [hlines]⟩
  · rintro ⟨vs, hvs, rfl⟩
    have hcode := Code.intro hds ((hmeans vs).2 hvs)
    rwa [hlines] at hcode

theorem runs_emitBody {f : SourceFile} (hnone : values stack = [])
    (hroom : ∀ q, Asks (.emit f) q → Room limit n stack q) (hs : Sits stack s) :
    Runs limit n stack (emit f) s fun code? s' => Sits stack s' ∧ Meets (.emit f) code? := by
  refine (runs_evaluate hs rfl (hroom _ (.emit_check f))).bind ?_
  rintro _ s₁ ⟨hs₁, ok, rfl, hok⟩
  refine (runs_evaluate hs₁ rfl (hroom _ (.emit_parse f))).bind ?_
  rintro _ s₂ ⟨hs₂, ds?, rfl, hds, hfile⟩
  cases ok with
  | false =>
    refine ⟨hs₂, fun code => ⟨fun h => (by cases h), fun h => ?_⟩⟩
    exact absurd (hok.2 h.1) (by simp)
  | true =>
    have hvalid := hok.1 rfl
    cases ds? with
    | none =>
      obtain ⟨ds, h, -⟩ := hvalid
      rw [← hds] at h
      cases h
    | some ds =>
      have hfile := hfile ds rfl
      refine (runs_emitAll hnone ds (fun d hd => hroom _ (.emit_value (hfile d hd))) hs₂).bind ?_
      rintro code? s₃ ⟨hs₃, hcode⟩
      refine ⟨hs₃, fun code => ?_⟩
      rw [Option.map_eq_some_iff, and_iff_right hvalid, code_iff hds.symm hfile]
      constructor
      · rintro ⟨lines, hlines, rfl⟩
        obtain ⟨vs, hvs, rfl⟩ := (hcode lines).1 hlines
        exact ⟨vs, hvs, rfl⟩
      · rintro ⟨vs, hvs, rfl⟩
        exact ⟨_, (hcode _).2 ⟨vs, hvs, rfl⟩, rfl⟩

/-! ## All requests -/

/-- Every body computes what its request should give. -/
theorem runs_body {r : Request} (hnone : 2 < r.rank → values stack = [])
    (hroom : ∀ q, Asks r q → Room limit n stack q) (hs : Sits stack s) :
    Runs limit n stack (rules.body r) s fun out s' => Sits stack s' ∧ Meets r out := by
  cases r with
  | parseModule f => exact runs_parseModule hs f
  | lookup f name => exact runs_lookupBody hs (hroom _ (.lookup_parse f name))
  | value d => exact runs_valueBody hroom hs
  | check f => exact runs_checkBody (hnone (by simp [Request.rank])) hroom hs
  | emit f => exact runs_emitBody (hnone (by simp [Request.rank])) hroom hs

/-- Every request is answered, and as it should be. -/
def compiling (limit : Nat) : Discipline rules fun _ => False where
  before n stack r s := Room limit n stack r ∧ Sits (r :: stack) s
  after _ r _ o s' := Answered r o s'
  exhausted := fun ⟨hroom, hs⟩ => absurd (hroom.pos hs) (Nat.lt_irrefl 0)
  faults := fun ⟨_, hs⟩ => .inr ⟨hs.owned, hs.known _⟩
  cycle := fun {n stack r s s'} ⟨hroom, hs⟩ hr hc => by
    refine ⟨fun q out hq => hs.correct q out ((hc.served? q).symm.trans hq), ?_, ?_⟩
    · rintro out ⟨⟩
    · -- each active request asked for the one above it, so the request leads to itself
      exact fun _ _ => cyclic_value (hroom.linked.leads hr)
  hit := fun {n stack r s out s'} ⟨_, hs⟩ _ hout hserves => by
    refine ⟨fun q v hq => hs.correct q v ((hserves.served? lawful q).symm.trans hq), ?_, ?_⟩
    · rintro _ ⟨⟩
      exact hs.correct r out hout
    · rintro c ⟨⟩
  body := fun {n stack r s s₁} ⟨hroom, hs⟩ hr _ hin => by
    have hs₁ : Sits (r :: stack) s₁ := hs.enters hin
    -- what was computed is kept whatever is active: it is what the request should give
    refine (runs_body (values_eq_nil hroom.linked) (fun q hq => hroom.push hs hr hq) hs₁).mono ?_
    rintro out s₂ ⟨hs₂, hmeets⟩ s' hout
    refine ⟨hs₂.correct.leaves hout hmeets, ?_, ?_⟩
    · rintro _ ⟨⟩
      exact hmeets
    · rintro c ⟨⟩

end Demand.Compiler
