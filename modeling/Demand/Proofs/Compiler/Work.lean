import Demand.Proofs.Compiler.Reports
import Demand.Proofs.Engine.Counting
import Mathlib.Data.List.Dedup

/-!
# The work of a check

A request is computed once: what was counted are the requests that are served by now (`Worked`).
Which these are follows from who asks for what. A name is looked up only for the value of a first
definition, and a value is done only when all its names were looked up, also those after an operand
without a value and those on a cycle (`seeks_fold`). Every evaluation keeps this, as a layer over
what the compiler reports (`working`).

So after a check the counts are known exactly (`Worked.entries_eq`), and as everything that a check
or the code of the file asks for is served, only the code itself is counted from then on
(`Session.check_works_once`).
-/

namespace Demand.Compiler

open Demand.Language

/-! ## What is counted -/

/-- All kinds, in the order of their numbers. -/
def Kind.all : List Kind := [.parseModule, .lookup, .value, .check, .emit]

theorem Kind.mem_all (k : Kind) : k ∈ Kind.all := by
  cases k <;> decide

/-- The entries for requests that were computed once each. -/
def tally (done : List Request) : List KindStatistics :=
  family.tally Kind.all fun k => done.countP fun r => r.kind = k

theorem tally_perm {done done' : List Request} (h : done.Perm done') : tally done = tally done' :=
  tally_congr fun _ _ => h.countP_eq _

/-- A computation of a kind is counted for that kind. -/
theorem countIn_tally_all (k : Kind) (n : Kind → Nat) :
    Statistics.countIn k.typeId k.name (family.tally Kind.all n) =
      family.tally Kind.all fun j => n j + if k = j then 1 else 0 :=
  @countIn_tally family Kind.all k (by decide) (Kind.mem_all k) n

theorem tally_cons (r : Request) (done : List Request) :
    tally (r :: done) = Statistics.countIn r.kind.typeId r.kind.name (tally done) := by
  rw [tally, tally, countIn_tally_all]
  refine tally_congr fun k _ => ?_
  rw [List.countP_cons]
  simp only [decide_eq_true_eq]

/-! ## What is looked up -/

/-- The name stands in the value of a first definition. -/
def Mentioned (f : SourceFile) (s : State family) (n : String) : Prop :=
  ∃ d, First f s d ∧ n ∈ names d.declaration.value

/-- What is served with a request: a name that was looked up is in the value of a first definition,
and with a value its names were looked up. -/
def Sought (f : SourceFile) (s : State family) : Request → Prop
  | .lookup _ n => Mentioned f s n
  | .value d => ∀ n ∈ names d.declaration.value, (s.served? (.lookup f n)).isSome
  | .parseModule _ | .check _ | .emit _ => True

/-- What was counted are the requests that are served, and they are served with what they need. -/
structure Worked (f : SourceFile) (s : State family) : Prop where
  collects : s.options.collectStatistics = true
  counted : ∃ done : List Request, done.Nodup ∧ (∀ q, q ∈ done ↔ (s.served? q).isSome) ∧
    s.statistics.entries = tally done
  sought : ∀ q, (s.served? q).isSome → Sought f s q

section Worked

variable {f : SourceFile} {s s' : State family}

theorem Grows.isSome (h : Grows s s') {q : Request} (hq : (s.served? q).isSome) :
    (s'.served? q).isSome := by
  obtain ⟨v, hv⟩ := Option.isSome_iff_exists.1 hq
  exact Option.isSome_iff_exists.2 ⟨v, h q v hv⟩

theorem Mentioned.mono {n : String} (h : Mentioned f s n) (hgrows : Grows s s') :
    Mentioned f s' n := by
  obtain ⟨d, hd, hn⟩ := h
  exact ⟨d, hd.mono hgrows, hn⟩

theorem Sought.mono {r : Request} (h : Sought f s r) (hgrows : Grows s s') : Sought f s' r := by
  cases r with
  | lookup g n => exact Mentioned.mono h hgrows
  | value d => exact fun n hn => hgrows.isSome (h n hn)
  | parseModule | check | emit => trivial

/-- Steps that serve and count nothing new. -/
theorem Worked.congr (h : Worked f s) (hoptions : s'.options = s.options)
    (hserved : ∀ q, s'.served? q = s.served? q) (hstatistics : s'.statistics = s.statistics) :
    Worked f s' := by
  have hgrows : Grows s s' := fun q v hq => (hserved q).trans hq
  obtain ⟨done, hnodup, hdone, hentries⟩ := h.counted
  refine ⟨by rw [hoptions]; exact h.collects, ⟨done, hnodup, ?_, ?_⟩, ?_⟩
  · intro q
    rw [hserved, hdone]
  · rw [hstatistics, hentries]
  · intro q hq
    rw [hserved] at hq
    exact (h.sought q hq).mono hgrows

/-- A request that ends is counted, and served from then on. -/
theorem Worked.leaves {r : Request} {out : Request.Output r} (h : Worked f s)
    (hout : Leaves rules r out s s') (hkept : family.inEngine r = true)
    (hnone : s.served? r = none) (hsought : Sought f s r) : Worked f s' := by
  have hgrows := grows_of_leaves hout hnone
  have hself : s'.served? r = some out := by
    rw [State.served?, if_pos hkept, hout.result_self hkept]
  have hserved : ∀ q, (s'.served? q).isSome ↔ q = r ∨ (s.served? q).isSome := by
    intro q
    by_cases hq : q = r
    · subst hq
      simp [hself]
    · rw [hout.served?_of_ne lawful hq]
      simp [hq]
  obtain ⟨done, hnodup, hdone, hentries⟩ := h.counted
  refine ⟨by rw [hout.options]; exact h.collects, ⟨r :: done, ?_, ?_, ?_⟩, ?_⟩
  · refine List.nodup_cons.2 ⟨?_, hnodup⟩
    rw [hdone, hnone]
    exact Bool.false_ne_true
  · intro q
    rw [List.mem_cons, hdone, hserved]
  · rw [hout.statistics, if_pos h.collects, tally_cons, ← hentries]
    rfl
  · intro q hq
    rcases (hserved q).1 hq with rfl | hq
    · exact hsought.mono hgrows
    · exact (h.sought q hq).mono hgrows

end Worked

/-! ## Who looks up names -/

/-- A name that is asked for is in the value of a first definition. -/
def Wanted (f : SourceFile) (r : Request) (s : State family) : Prop :=
  ∀ g n, r = .lookup g n → Mentioned f s n

/-- The task asks only for names that are wanted. -/
abbrev Seeks {α : Type} (f : SourceFile) (stack : List Request) (t : Task family α)
    (s : State family) (Q : α → State family → Prop) : Prop :=
  t.Safe (Wanted f) (fun q s o s' => Answers stack q s o s' ∧ Answered q o s') stack s Q

section Seeks

variable {f : SourceFile} {stack : List Request} {s : State family}

theorem seeks_report (p : Problem) :
    Seeks f stack (reportProblem f p) s fun _ s' => Grows s s' :=
  (Task.safe_reportAll _).mono fun _ _ h q _ hq => (h.1.served? q).trans hq

theorem seeks_settle (span : Span) (m : Int) :
    Seeks f stack (settle f span m) s fun _ s' => Grows s s' := by
  unfold settle
  cases fitting m with
  | some w => exact fun _ _ hq => hq
  | none => exact (seeks_report _).bind fun _ _ h => h

theorem seeks_value (d : Definition) :
    Seeks f stack (Task.evaluateD (F := family) (.value d) none) s fun _ s' => Grows s s' := by
  refine ⟨?_, fun o s' h => h.1.served⟩
  rintro g n ⟨⟩

/-- A name is looked up, and is there from then on. -/
theorem seeks_lookup {m : String} (hm : Mentioned f s m) :
    Seeks f stack (Task.evaluateD (F := family) (.lookup f m) none) s fun _ s' =>
      Grows s s' ∧ (s'.served? (.lookup f m)).isSome := by
  refine ⟨?_, fun o s' ⟨hanswers, hanswered⟩ => ⟨hanswers.served, ?_⟩⟩
  · rintro g n ⟨⟩
    exact hm
  · cases o with
    | ok out => exact Option.isSome_iff_exists.2 ⟨out, hanswers.kept out rfl rfl⟩
    | error c =>
      obtain ⟨d, hd, -⟩ := hanswered.error c rfl
      cases hd

/-- All names of an expression are looked up, those of the second operand also if the first has no
value. -/
theorem seeks_fold (e : Expr) (he : ∀ m ∈ names e, Mentioned f s m) :
    Seeks f stack (fold f e) s fun _ s' =>
      Grows s s' ∧ ∀ m ∈ names e, (s'.served? (.lookup f m)).isSome := by
  induction e generalizing s with
  | integer v span =>
    refine ⟨fun _ _ hq => hq, fun m hm => ?_⟩
    cases hm
  | name m span =>
    refine (seeks_lookup (he m List.mem_cons_self)).bind ?_
    rintro d? s₁ ⟨h₁, hserved⟩
    have hdone : ∀ s₂, Grows s₁ s₂ →
        Grows s s₂ ∧ ∀ n ∈ names (.name m span), (s₂.served? (.lookup f n)).isSome := by
      intro s₂ h₂
      refine ⟨fun q v hq => h₂ q v (h₁ q v hq), fun n hn => ?_⟩
      rw [List.mem_singleton.1 hn]
      exact h₂.isSome hserved
    cases d? with
    | none => exact (seeks_report _).bind fun _ s₂ h₂ => hdone s₂ h₂
    | some d => exact (seeks_value d).mono fun _ s₂ h₂ => hdone s₂ h₂
  | negate e span ih =>
    refine (ih he).bind ?_
    rintro v? s₁ ⟨h₁, hserved⟩
    cases v? with
    | none => exact ⟨h₁, hserved⟩
    | some v =>
      refine (seeks_settle span (-v)).mono fun _ s₂ h₂ => ?_
      exact ⟨fun q w hq => h₂ q w (h₁ q w hq), fun n hn => h₂.isSome (hserved n hn)⟩
  | binary op l r span ihl ihr =>
    refine (ihl fun m hm => he m (List.mem_append_left _ hm)).bind ?_
    rintro a? s₁ ⟨h₁, hl⟩
    refine (ihr fun m hm => (he m (List.mem_append_right _ hm)).mono h₁).bind ?_
    rintro b? s₂ ⟨h₂, hr⟩
    have hdone : ∀ s₃, Grows s₂ s₃ → Grows s s₃ ∧
        ∀ n ∈ names (.binary op l r span), (s₃.served? (.lookup f n)).isSome := by
      intro s₃ h₃
      refine ⟨fun q v hq => h₃ q v (h₂ q v (h₁ q v hq)), fun n hn => h₃.isSome ?_⟩
      rcases List.mem_append.1 hn with hn | hn
      · exact h₂.isSome (hl n hn)
      · exact hr n hn
    cases a? with
    | none => exact hdone s₂ fun _ _ hq => hq
    | some a =>
      cases b? with
      | none => exact hdone s₂ fun _ _ hq => hq
      | some b => exact (seeks_settle span (op.apply a b)).mono fun _ s₃ h₃ => hdone s₃ h₃

/-- Only values ask for names. -/
theorem wanted_of_asks {r q : Request} (hr : r.value? = none) (h : Asks r q) : Wanted f q s := by
  rintro g n rfl
  cases h
  cases hr

/-- A body asks for names that are wanted, and ends with what its request needs. -/
theorem seeks_body {r : Request} (hfile : r.file = f) (hfirst : ∀ d, r = .value d → First f s d)
    (hwanted : Wanted f r s)
    (hasks : (rules.body r).Safe (fun q _ => Asks r q)
      (fun q s o s' => Answers stack q s o s' ∧ Answered q o s') stack s fun _ s' => Grows s s') :
    Seeks f stack (rules.body r) s fun _ s' => Sought f s' r := by
  cases r with
  | value d =>
    cases hfile
    have hnames : ∀ m ∈ names d.declaration.value, Mentioned d.file s m :=
      fun m hm => ⟨d, hfirst d rfl, hm⟩
    have hlogged := (Still.log s .trace s!"folding `{d.name}`").served?
    exact (seeks_fold d.declaration.value fun m hm =>
      (hnames m hm).mono fun q v hq => (hlogged q).trans hq).mono fun _ _ h => h.2
  | lookup g n =>
    exact (hasks.of_before fun _ _ => wanted_of_asks rfl).mono fun _ _ hgrows =>
      (hwanted g n rfl).mono hgrows
  | parseModule | check | emit =>
    exact (hasks.of_before fun _ _ => wanted_of_asks rfl).mono fun _ _ _ => trivial

end Seeks

/-- Every evaluation counts what it computes, and computes what is wanted. -/
def working (limit : Nat) (f : SourceFile) : Layer (reporting limit f).discipline where
  before _ r s := Wanted f r s
  after _ _ s _ s' := Worked f s → Worked f s'
  cycle := fun _ _ _ hc hworked => hworked.congr hc.options hc.served? hc.statistics
  hit := fun _ _ _ _ hserves hworked =>
    hworked.congr hserves.options (hserves.served? lawful) hserves.statistics
  body := fun {n stack r s s₁} hb hwanted hr hnone hin => by
    obtain ⟨hcompiles, hasked⟩ := hb
    have hgrows : Grows s s₁ := fun q v hq => (hin.served? q).trans hq
    -- what the compiler shows of the body says which requests it asks for
    have hasks := ((compiling limit).body hcompiles hr hnone hin).frame (keeps _)
      fun _ _ _ _ h => h.1.toFrame
    have hseeks : Seeks f (r :: stack) (rules.body r) s₁ fun _ s' => Sought f s' r :=
      seeks_body hasked.file (fun d hd => (hasked.first d hd).mono hgrows)
        (fun g m hm => (hwanted g m hm).mono hgrows)
        ((hasks.of_before fun q _ h => (List.isChain_cons_cons.1 h.1.linked).1).mono
          fun _ _ h => h.1.served)
    have hkeeps : (rules.body r).Safe (fun _ _ => True)
        (fun q s o s' => Answers (r :: stack) q s o s' ∧
          (reporting limit f).discipline.after (r :: stack) q s o s' ∧ (Worked f s → Worked f s'))
        (r :: stack) s₁ fun _ s' => Worked f s → Worked f s' :=
      Task.safe_invariant (I := fun s' => Worked f s → Worked f s') (p := fun _ => True)
        (fun _ _ hstill h hs =>
          (h hs).congr hstill.options hstill.served? hstill.statistics)
        (fun _ _ _ _ => trivial) (fun _ _ _ _ _ h hafter hs => hafter.2.2 (h hs))
        (Task.asks_any _) (keeps _)
        fun hs => hs.congr hin.options hin.served? hin.statistics
    refine ((hkeeps.join (hseeks.of_after fun _ _ _ _ h => ⟨h.1, h.2.1.1⟩)
      fun _ _ _ _ h => h).frame (keeps _) fun _ _ _ _ h => h.1.toFrame).mono ?_
    rintro out s₂ ⟨hframe, hworked, hsought⟩ s' hout hs
    -- the request is active while its body runs, so nothing else gives it a result
    have hnone₂ : s₂.served? r = none := by
      rw [hframe.served_active r List.mem_cons_self, hin.served?, hnone]
    exact (hworked hs).leaves hout (inEngine_of_rank hasked.rank) hnone₂ hsought

/-! ## The counts after a check -/

/-- How often the requests of a kind are computed for a file that is checked and whose code is asked
for so many times. -/
def workCount (f : SourceFile) (codes : Nat) : Kind → Nat
  | .parseModule | .check => 1
  | .lookup => ((firsts (declarations f)).flatMap fun d => names d.value).dedup.length
  | .value => ((declarations f).map Declaration.name).dedup.length
  | .emit => codes

/-- The statistics of a file that is checked and whose code is asked for so many times. The names in
first declarations are looked up, and each declared name has one value. -/
def workEntries (f : SourceFile) (codes : Nat) : List KindStatistics :=
  let lookups := ((firsts (declarations f)).flatMap fun d => names d.value).dedup.length
  let values := ((declarations f).map Declaration.name).dedup.length
  [⟨⟨.parse, 0⟩, "ParseModule", 1, ⟨0⟩⟩, ⟨⟨.nameLookup, 0⟩, "LookupTopLevel", lookups, ⟨0⟩⟩,
    ⟨⟨.typeChecker, 0⟩, "ValueOfDecl", values, ⟨0⟩⟩, ⟨⟨.typeChecker, 1⟩, "CheckModule", 1, ⟨0⟩⟩,
    ⟨⟨.irGen, 0⟩, "EmitIr", codes, ⟨0⟩⟩].filter fun e => e.evaluations ≠ 0

theorem workEntries_eq_tally (f : SourceFile) (codes : Nat) :
    workEntries f codes = family.tally Kind.all (workCount f codes) := rfl

/-- One more code is counted for its kind. -/
theorem countIn_workEntries (f : SourceFile) (codes : Nat) :
    Statistics.countIn Kind.emit.typeId Kind.emit.name (workEntries f codes) =
      workEntries f (codes + 1) := by
  rw [workEntries_eq_tally, workEntries_eq_tally, countIn_tally_all]
  refine tally_congr fun k _ => ?_
  cases k <;> rfl

/-- There is one first declaration for each declared name. -/
theorem length_firsts {ds : List Declaration} (hds : ds.Nodup) :
    (firsts ds).length = (ds.map Declaration.name).dedup.length := by
  have hinj : ∀ d ∈ firsts ds, ∀ d' ∈ firsts ds, d.name = d'.name → d = d' := by
    intro d hd d' hd' hname
    have hfirst := of_decide_eq_true (List.mem_filter.1 hd).2
    have hfirst' := of_decide_eq_true (List.mem_filter.1 hd').2
    rw [hname, hfirst'] at hfirst
    exact (Option.some.inj hfirst).symm
  have hnodup : ((firsts ds).map Declaration.name).Nodup :=
    List.Nodup.map_on hinj (hds.filter _)
  have hperm : ((firsts ds).map Declaration.name).Perm (ds.map Declaration.name).dedup := by
    refine (List.perm_ext_iff_of_nodup hnodup (List.nodup_dedup _)).2 fun n => ?_
    rw [List.mem_dedup, List.mem_map, List.mem_map]
    constructor
    · rintro ⟨d, hd, rfl⟩
      exact ⟨d, List.mem_of_mem_filter hd, rfl⟩
    · rintro ⟨d, hd, rfl⟩
      obtain ⟨first, hfind⟩ : ∃ first, findDeclaration ds d.name = some first :=
        Option.isSome_iff_exists.1 (List.find?_isSome.2 ⟨d, hd, by simp⟩)
      have hname : first.name = d.name := by simpa using List.find?_some hfind
      refine ⟨first, List.mem_filter.2 ⟨List.mem_of_find?_eq_some hfind, ?_⟩, hname⟩
      rw [hname]
      exact decide_eq_true hfind
  rw [← hperm.length_eq, List.length_map]

section Complete

variable {f : SourceFile} {s : State family} {ds? : Option (List Definition)} {ok : Bool}

/-- The names in the values of first definitions. -/
def soughtNames (ds : List Definition) : List String :=
  ((firstDefinitions ds).flatMap fun d => names d.declaration.value).dedup

theorem mem_soughtNames {ds : List Definition} {n : String} :
    n ∈ soughtNames ds ↔ ∃ d ∈ firstDefinitions ds, n ∈ names d.declaration.value := by
  rw [soughtNames, List.mem_dedup, List.mem_flatMap]

/-- The requests that a check of a file computes. -/
def work (f : SourceFile) (ds : List Definition) : List Request :=
  .parseModule f :: .check f ::
    ((firstDefinitions ds).map .value ++ (soughtNames ds).map (.lookup f))

theorem nodup_work {ds : List Definition} (hds : ds.Nodup) : (work f ds).Nodup := by
  have hvalues : ((firstDefinitions ds).map Request.value).Nodup :=
    (hds.filter _).map fun _ _ => Request.value.inj
  have hlookups : ((soughtNames ds).map (Request.lookup f)).Nodup :=
    (List.nodup_dedup _).map fun _ _ h => (Request.lookup.inj h).2
  have hdisjoint : ∀ q ∈ (firstDefinitions ds).map Request.value,
      ∀ q' ∈ (soughtNames ds).map (Request.lookup f), q ≠ q' := by
    intro q hq q' hq'
    obtain ⟨d, -, rfl⟩ := List.mem_map.1 hq
    obtain ⟨n, -, rfl⟩ := List.mem_map.1 hq'
    exact Request.noConfusion
  have hrest := List.nodup_append.2 ⟨hvalues, hlookups, hdisjoint⟩
  simpa [work] using hrest

/-- After a check just this is served: the file was read and checked, the values of the first
definitions were computed, and the names in them looked up. -/
theorem Worked.isSome_iff_mem_work (h : Worked f s) (hs : Coherent f s)
    (hcheck : s.served? (.check f) = some ok) (hread : s.served? (.parseModule f) = some ds?)
    (q : Request) : (s.served? q).isSome ↔ q ∈ work f (ds?.getD []) := by
  have hvalues := (hs (.check f) ok hcheck).2.2
  rw [work, List.mem_cons, List.mem_cons, List.mem_append, List.mem_map, List.mem_map]
  constructor
  · intro hq
    have hsought := h.sought q hq
    obtain ⟨out, hout⟩ := Option.isSome_iff_exists.1 hq
    obtain ⟨hfile, hbacked⟩ := hs q out hout
    cases q with
    | parseModule g => exact .inl (congrArg _ hfile)
    | check g => exact .inr (.inl (congrArg _ hfile))
    | value d => exact .inr (.inr (.inl ⟨d, (first_iff hread d).1 hbacked, rfl⟩))
    | lookup g n =>
      obtain ⟨d, hd, hn⟩ := hsought
      cases hfile
      exact .inr (.inr (.inr ⟨n, mem_soughtNames.2 ⟨d, (first_iff hread d).1 hd, hn⟩, rfl⟩))
    | emit g => cases hout
  · rintro (rfl | rfl | ⟨d, hd, rfl⟩ | ⟨n, hn, rfl⟩)
    · rw [hread]
      rfl
    · rw [hcheck]
      rfl
    · exact hvalues d ((first_iff hread d).2 hd)
    · obtain ⟨d, hd, hn⟩ := mem_soughtNames.1 hn
      exact h.sought (.value d) (hvalues d ((first_iff hread d).2 hd)) n hn

theorem countP_work (f : SourceFile) (ds : List Definition) (k : Kind) :
    ((work f ds).countP fun r => r.kind = k) =
      match k with
      | .parseModule | .check => 1
      | .lookup => (soughtNames ds).length
      | .value => (firstDefinitions ds).length
      | .emit => 0 := by
  cases k <;> simp [work, Request.kind, List.countP_map, Function.comp_def]

/-- What a check computes is counted as it should be. -/
theorem tally_work (hds : Meets (.parseModule f) ds?) :
    tally (work f (ds?.getD [])) = workEntries f 0 := by
  have hlengths : (soughtNames (ds?.getD [])).length = workCount f 0 .lookup ∧
      (firstDefinitions (ds?.getD [])).length = workCount f 0 .value := by
    rw [workCount, workCount]
    cases ds? with
    | none =>
      rw [declarations_eq_nil hds.1.symm]
      exact ⟨rfl, rfl⟩
    | some ds =>
      have hsome := hds.1.symm
      have hnodup : (declarations f).Nodup := by
        rw [declarations_eq hsome]
        exact nodup_of_declarations? hsome
      rw [← length_firsts hnodup, firsts_eq_map hsome, List.flatMap_map, List.length_map]
      exact ⟨rfl, rfl⟩
  rw [workEntries_eq_tally, tally]
  refine tally_congr fun k _ => ?_
  rw [countP_work]
  cases k with
  | lookup => exact hlengths.1
  | value => exact hlengths.2
  | parseModule | check | emit => rfl

/-- After a check every piece of work was counted once. -/
theorem Worked.entries_eq (h : Worked f s) (hs : Coherent f s) (hcorrect : Correct s)
    (hcheck : s.served? (.check f) = some ok) : s.statistics.entries = workEntries f 0 := by
  obtain ⟨ds?, hread⟩ := Option.isSome_iff_exists.1 (hs (.check f) ok hcheck).2.1
  have hds := hcorrect _ _ hread
  obtain ⟨done, hdone, hmem, hentries⟩ := h.counted
  have hperm : done.Perm (work f (ds?.getD [])) := by
    refine (List.perm_ext_iff_of_nodup hdone (nodup_work (nodup_reading hds))).2 fun q => ?_
    rw [hmem, h.isSome_iff_mem_work hs hcheck hread]
  rw [hentries, tally_perm hperm, tally_work hds]

end Complete

/-! ## Code after a check -/

/-- The task, run for the code of a file, changes nothing that was served, counted or reported in
the first state, if what is served stays the answer. -/
abbrev Rests {α : Type} (f : SourceFile) (t : Task family α) (s₀ s : State family) : Prop :=
  @Task.Safe family α (fun _ _ => True)
    (fun q s o s' => q ∉ [Request.emit f] → ∀ out, s.served? q = some out →
      o = .ok out ∧ Unmoved s s') [.emit f] t s fun _ s' => Unmoved s₀ s'

section Rests

variable {f : SourceFile} {s₀ s s' : State family}

theorem rests_emitAll (ds : List Definition) (hs : Unmoved s₀ s)
    (hds : ∀ d ∈ ds, (s₀.served? (.value d)).isSome) : Rests f (emitAll ds) s₀ s := by
  induction ds generalizing s with
  | nil => exact hs
  | cons d ds ih =>
    have hrest : ∀ d ∈ ds, (s₀.served? (.value d)).isSome := fun d hd =>
      hds d (List.mem_cons_of_mem _ hd)
    obtain ⟨v?, hv⟩ := Option.isSome_iff_exists.1 (hds d List.mem_cons_self)
    refine ⟨trivial, fun o s₁ ho => ?_⟩
    obtain ⟨rfl, h₁⟩ := ho (by simp) v? ((hs.served _).trans hv)
    cases v? with
    | none => exact hs.trans h₁
    | some v => exact (ih (hs.trans h₁) hrest).bind fun _ _ h => h

/-- The values of a file that passes are all there after its check. -/
theorem isSome_value_of_check (hs : Coherent f s) (hcorrect : Correct s)
    (hcheck : s.served? (.check f) = some true) {ds : List Definition}
    (hread : s.served? (.parseModule f) = some (some ds)) {d : Definition} (hd : d ∈ ds) :
    (s.served? (.value d)).isSome := by
  obtain ⟨hds, hfile⟩ := hcorrect _ _ hread
  have hvalid : Valid f := (hcorrect _ _ hcheck).1 rfl
  have hpasses := (valid_iff_passes hds.symm (hfile ds rfl)).1 hvalid d hd
  obtain ⟨first, hfind⟩ := exists_find? hd
  rw [hpasses.1 first hfind] at hfind
  exact (hs _ _ hcheck).2.2 d ⟨ds, hread, hfind⟩

theorem rests_emit (hs : Coherent f s) (hcorrect : Correct s) {ok : Bool}
    (hcheck : s.served? (.check f) = some ok) : Rests f (emit f) s s := by
  obtain ⟨ds?, hread⟩ := Option.isSome_iff_exists.1 (hs _ _ hcheck).2.1
  refine ⟨trivial, fun o s₁ ho => ?_⟩
  obtain ⟨rfl, h₁⟩ := ho (by simp) ok hcheck
  refine ⟨trivial, fun o s₂ ho => ?_⟩
  obtain ⟨rfl, h₂⟩ := ho (by simp) ds? ((h₁.served _).trans hread)
  cases ok with
  | false => exact h₁.trans h₂
  | true =>
    cases ds? with
    | none => exact h₁.trans h₂
    | some ds =>
      have hvalues : ∀ d ∈ ds, (s.served? (.value d)).isSome := fun d hd =>
        isSome_value_of_check hs hcorrect hcheck hread hd
      exact (rests_emitAll ds (h₁.trans h₂) hvalues).bind fun _ _ h => h

/-- Code after a check is counted, and nothing else happens. -/
theorem counted_of_emit (hs : Coherent f s) (hcorrect : Correct s) {ok : Bool}
    (hcheck : s.served? (.check f) = some ok) (hcollects : s.options.collectStatistics = true)
    {n : Nat} {o : Outcome family (.emit f)} (h : rules.evaluate n [] (.emit f) s = .ok o s') :
    s'.options = s.options ∧ (∀ q, s'.served? q = s.served? q) ∧
      s'.diagnostics = s.diagnostics ∧
      s'.statistics.entries =
        Statistics.countIn Kind.emit.typeId Kind.emit.name s.statistics.entries := by
  cases n with
  | zero => cases h
  | succ n =>
    rcases Rules.evaluate_cases h with ⟨hmem, -⟩ | ⟨-, out, hl, -⟩ |
      ⟨-, -, s₁, out, s₂, -, hin, hbody, hout, -⟩
    · cases hmem
    · cases State.served?_of_lookup hl
    · have hs₁ : Coherent f s₁ := hs.congr hin.served?
      have hcorrect₁ : Correct s₁ := fun q v hq => hcorrect q v ((hin.served? q).symm.trans hq)
      have hrests := rests_emit hs₁ hcorrect₁ ((hin.served? _).trans hcheck)
      have hends : Eval.Ends (fun _ => True) _ s₁ fun _ s' => Unmoved s₁ s' :=
        Task.ends_run (fun q s _ => Rules.ends_served lawful n [.emit f] q s) _ hrests
      have hunmoved := hends.of_ok hbody
      refine ⟨?_, fun q => ?_, ?_, ?_⟩
      · rw [hout.options, hunmoved.options, hin.options]
      · by_cases hq : q = .emit f
        · subst hq
          rfl
        · rw [hout.served?_of_ne lawful hq, hunmoved.served, hin.served?]
      · rw [hout.diagnostics, hunmoved.diagnostics, hin.diagnostics]
      · have hcollects₂ : s₂.options.collectStatistics = true := by
          rw [hunmoved.options, hin.options, hcollects]
        rw [hout.statistics, if_pos hcollects₂, hunmoved.statistics, hin.statistics]
        rfl

end Rests

namespace Session

variable {files : List SourceFile} {s : Session} {f : SourceFile} {i codes : Nat}
  {ds : List Diagnostic}

/-- An evaluation as a step is answered by the rules. -/
theorem Sound.exists_evaluated (h : Sound files s) {q : Query} {r : Request}
    (hr : s.request? q = some r) :
    ∃ out s', s.step (.evaluate q) =
        (⟨.ok (.reply (.answers [⟨r, .ok out⟩])), s'.diagnostics.length⟩,
          { s with state := s' }) ∧
      rules.evaluate (depth files s.state) [] r s.state = .ok (.ok out) s' ∧
      Sound files { s with state := s' } := by
  obtain ⟨_, s', hact, ⟨out, rfl, -⟩, hsits⟩ := (h.ends_evaluateStep hr).exists_ok
  refine ⟨out, s', step_of_ok hact, ?_, h.files_eq, h.held, hsits⟩
  have hworks : (Step.evaluate q).Works := trivial
  rw [← h.files_eq]
  cases acted_of_act hworks hact with
  | evaluate _ heval => exact heval

/-- The file was checked. What was counted is this check and codes, and this was reported. -/
structure Settled (files : List SourceFile) (f : SourceFile) (ds : List Diagnostic) (codes : Nat)
    (s : Session) : Prop where
  sound : Sound files s
  coherent : Coherent f s.state
  checked : ∃ ok, s.state.served? (.check f) = some ok
  collects : s.state.options.collectStatistics = true
  entries : s.state.statistics.entries = workEntries f codes
  diagnostics : s.state.diagnostics = ds

theorem Sound.file?_eq (h : Sound files s) (hf : files[i]? = some f) : s.file? i = some f := by
  rw [file?, h.files_eq, hf]

theorem Sound.request?_check (h : Sound files s) (hf : files[i]? = some f) :
    s.request? (.check i) = some (.check f) := by
  rw [request?, h.file?_eq hf]
  rfl

theorem Sound.request?_emit (h : Sound files s) (hf : files[i]? = some f) :
    s.request? (.emit i) = some (.emit f) := by
  rw [request?, h.file?_eq hf]
  rfl

theorem start_worked (files : List SourceFile) {options : Options}
    (hcollects : options.collectStatistics = true) (f : SourceFile) :
    Worked f (start files options true).state := by
  refine ⟨hcollects, ⟨[], List.nodup_nil, fun q => ?_, rfl⟩, fun q hq => ?_⟩
  · rw [start_served?]
    simp
  · rw [start_served?] at hq
    cases hq

/-- The first check. -/
theorem exists_settled (files : List SourceFile) {options : Options}
    (hcollects : options.collectStatistics = true) (hf : files[i]? = some f) :
    ∃ ok s', (start files options true).step (.evaluate (.check i)) =
        (⟨.ok (.reply (.answers [⟨.check f, .ok ok⟩])), s'.diagnostics.length⟩,
          { start files options true with state := s' }) ∧
      Settled files f s'.diagnostics 0 { start files options true with state := s' } := by
  have hsound := start_sound files options
  obtain ⟨ok, s', hstep, heval, hsound'⟩ := hsound.exists_evaluated (hsound.request?_check hf)
  have hasked : Asked f (.check f) (start files options true).state :=
    ⟨rfl, (by decide : 3 < 4), start_coherent files options f, by rintro d ⟨⟩⟩
  have hwanted : Wanted f (.check f) (start files options true).state := by
    rintro g n ⟨⟩
  obtain ⟨hanswers, ⟨hanswered, hadds⟩, hworked⟩ :=
    ((working _ f).discipline.ends lawful _ [] (.check f) _
      ⟨⟨⟨room_start (List.mem_of_getElem? hf) _, hsound.sits.single (.check f)⟩, hasked⟩,
        hwanted⟩).of_ok heval
  have hs' := hworked (start_worked files hcollects f)
  have hcheck := hanswers.kept ok rfl rfl
  exact ⟨ok, s', hstep, hsound', hadds.coherent, ⟨ok, hcheck⟩, hs'.collects,
    hs'.entries_eq hadds.coherent hanswered.correct hcheck, rfl⟩

/-- Another check changes nothing. -/
theorem Settled.check (h : Settled files f ds codes s) (hf : files[i]? = some f) :
    Settled files f ds codes (s.step (.evaluate (.check i))).2 := by
  obtain ⟨ok, hcheck⟩ := h.checked
  obtain ⟨out, s', hstep, heval, hsound⟩ := h.sound.exists_evaluated (h.sound.request?_check hf)
  obtain ⟨-, hunmoved⟩ := Rules.unmoved_of_served lawful heval List.not_mem_nil hcheck
  rw [hstep]
  exact ⟨hsound, h.coherent.congr hunmoved.served, ⟨ok, (hunmoved.served _).trans hcheck⟩,
    (congrArg Options.collectStatistics hunmoved.options).trans h.collects,
    (congrArg Statistics.entries hunmoved.statistics).trans h.entries,
    hunmoved.diagnostics.trans h.diagnostics⟩

/-- Code is counted and changes nothing else. -/
theorem Settled.emit (h : Settled files f ds codes s) (hf : files[i]? = some f) :
    Settled files f ds (codes + 1) (s.step (.evaluate (.emit i))).2 := by
  obtain ⟨ok, hcheck⟩ := h.checked
  obtain ⟨out, s', hstep, heval, hsound⟩ := h.sound.exists_evaluated (h.sound.request?_emit hf)
  obtain ⟨hoptions, hserved, hdiagnostics, hentries⟩ :=
    counted_of_emit h.coherent h.sound.sits.correct hcheck h.collects heval
  rw [hstep]
  refine ⟨hsound, h.coherent.congr hserved, ⟨ok, (hserved _).trans hcheck⟩,
    (congrArg Options.collectStatistics hoptions).trans h.collects, ?_,
    hdiagnostics.trans h.diagnostics⟩
  show s'.statistics.entries = _
  rw [hentries, h.entries, countIn_workEntries]

/-- After any checks and codes of the file, the codes were counted and nothing else. -/
theorem Settled.after (h : Settled files f ds codes s) (hf : files[i]? = some f) {qs : List Query}
    (hqs : ∀ q ∈ qs, q = .check i ∨ q = .emit i) :
    Settled files f ds (codes + qs.count (.emit i)) (s.after (qs.map .evaluate)) := by
  induction qs generalizing s codes with
  | nil => exact h
  | cons q qs ih =>
    have hrest : ∀ q ∈ qs, q = .check i ∨ q = .emit i := fun q hq =>
      hqs q (List.mem_cons_of_mem _ hq)
    rcases hqs q List.mem_cons_self with rfl | rfl
    · rw [List.count_cons_of_ne (by simp)]
      exact ih (h.check hf) hrest
    · rw [List.count_cons_self, Nat.add_comm (qs.count _), ← Nat.add_assoc]
      exact ih (h.emit hf) hrest

/-- A check of a file on a new engine that collects statistics does each piece of work once,
whatever is wrong with the file. The statistics then count the reading and the check of the file,
one lookup for each name in a first declaration, and one value for each declared name. Of a file
that cannot be read, they count its reading and its check.

Whatever checks and codes of the file follow, the statistics count the codes besides, and nothing
more is reported. -/
theorem check_works_once (files : List SourceFile) (options : Options) (i : Nat) (f : SourceFile)
    (hf : files[i]? = some f) (hcollects : options.collectStatistics = true) :
    ∃ ok ds s₁, (start files options true).step (.evaluate (.check i)) =
        (⟨.ok (.reply (.answers [⟨.check f, .ok ok⟩])), ds.length⟩, s₁) ∧
      (∀ qs : List Query, (∀ q ∈ qs, q = .check i ∨ q = .emit i) →
        ((s₁.after (qs.map .evaluate)).step .statistics).1.result =
          .ok (.reply (.statistics (workEntries f (qs.count (.emit i))))) ∧
        ((s₁.after (qs.map .evaluate)).step .diagnostics).1.result =
          .ok (.reply (.diagnostics ds))) ∧
      (declarations? f = none → workEntries f 0 =
        [⟨⟨.parse, 0⟩, "ParseModule", 1, ⟨0⟩⟩, ⟨⟨.typeChecker, 1⟩, "CheckModule", 1, ⟨0⟩⟩]) := by
  obtain ⟨ok, s', hstep, hsettled⟩ := exists_settled files hcollects hf
  refine ⟨ok, s'.diagnostics, _, hstep, fun qs hqs => ?_, fun hunread => ?_⟩
  · have hafter := hsettled.after hf hqs
    rw [← Nat.zero_add (qs.count _), ← hafter.entries, ← hafter.diagnostics]
    exact ⟨rfl, rfl⟩
  · rw [workEntries, declarations_eq_nil hunread]
    rfl

/-- What is counted for the faulty file: the cycle, the name that is declared twice and the one that
is not declared at all make nothing be done twice or left out. -/
theorem check_works_once_faulty :
    ∃ ok ds s₁, (start [faulty] { collectStatistics := true } true).step (.evaluate (.check 0)) =
        (⟨.ok (.reply (.answers [⟨.check faulty, .ok ok⟩])), ds.length⟩, s₁) ∧
      (s₁.step .statistics).1.result =
        .ok (.reply (.statistics [⟨⟨.parse, 0⟩, "ParseModule", 1, ⟨0⟩⟩,
          ⟨⟨.nameLookup, 0⟩, "LookupTopLevel", 3, ⟨0⟩⟩, ⟨⟨.typeChecker, 0⟩, "ValueOfDecl", 3, ⟨0⟩⟩,
          ⟨⟨.typeChecker, 1⟩, "CheckModule", 1, ⟨0⟩⟩])) ∧
      ((s₁.after [.evaluate (.check 0), .evaluate (.emit 0)]).step .statistics).1.result =
        .ok (.reply (.statistics [⟨⟨.parse, 0⟩, "ParseModule", 1, ⟨0⟩⟩,
          ⟨⟨.nameLookup, 0⟩, "LookupTopLevel", 3, ⟨0⟩⟩, ⟨⟨.typeChecker, 0⟩, "ValueOfDecl", 3, ⟨0⟩⟩,
          ⟨⟨.typeChecker, 1⟩, "CheckModule", 1, ⟨0⟩⟩, ⟨⟨.irGen, 0⟩, "EmitIr", 1, ⟨0⟩⟩])) ∧
      ((s₁.after [.evaluate (.check 0), .evaluate (.emit 0)]).step .diagnostics).1.result =
        .ok (.reply (.diagnostics ds)) := by
  obtain ⟨ok, ds, s₁, hstep, hqs, -⟩ :=
    check_works_once [faulty] { collectStatistics := true } 0 faulty rfl rfl
  have hnone := hqs [] (by simp)
  have hboth := hqs [.check 0, .emit 0] (by simp)
  have hchecked : workEntries faulty 0 =
      [⟨⟨.parse, 0⟩, "ParseModule", 1, ⟨0⟩⟩, ⟨⟨.nameLookup, 0⟩, "LookupTopLevel", 3, ⟨0⟩⟩,
        ⟨⟨.typeChecker, 0⟩, "ValueOfDecl", 3, ⟨0⟩⟩,
        ⟨⟨.typeChecker, 1⟩, "CheckModule", 1, ⟨0⟩⟩] := by
    decide +kernel
  have hcoded : workEntries faulty 1 =
      [⟨⟨.parse, 0⟩, "ParseModule", 1, ⟨0⟩⟩, ⟨⟨.nameLookup, 0⟩, "LookupTopLevel", 3, ⟨0⟩⟩,
        ⟨⟨.typeChecker, 0⟩, "ValueOfDecl", 3, ⟨0⟩⟩, ⟨⟨.typeChecker, 1⟩, "CheckModule", 1, ⟨0⟩⟩,
        ⟨⟨.irGen, 0⟩, "EmitIr", 1, ⟨0⟩⟩] := by
    decide +kernel
  rw [show [].count (Query.emit 0) = 0 from rfl, hchecked] at hnone
  rw [show [Query.check 0, .emit 0].count (.emit 0) = 1 from rfl, hcoded] at hboth
  exact ⟨ok, ds, s₁, hstep, hnone.1, hboth.1, hboth.2⟩

end Session

end Demand.Compiler
