import Demand.Proofs.Compiler.Bodies
import Demand.Proofs.Engine.Layer
import Mathlib.Order.ConditionallyCompleteLattice.Basic

/-!
# The references of a file

What is recorded for the value of a definition depends on what was active when it was computed: a
value on a cycle is cut short where the cycle closes, and keeps its records as they are. It is not
known, then, but it is bounded: a value has the names in its own declaration, and any others are
names in a declaration that is the first of its name (`Recorded`). A check starts while no value is
active, so it looks at every first declaration in full, and for a check the two bounds are one:

    ref is recorded for the check of f ↔ FileRefers f ref                 (`Recorded.check_iff`)

The bounds are kept by every evaluation, as a layer over what the compiler answers (`collecting`).
-/

namespace Demand.Compiler

open Demand.Language

/-! ## What is referred to -/

/-- The reference is to a name in the expression. -/
def Refers (e : Expr) (ref : Reference) : Prop :=
  ∃ n ∈ names e, ref = .topLevel n

/-- The reference is to a name in the value of a declaration of the file that is the first of its
name. -/
def FileRefers (f : SourceFile) (ref : Reference) : Prop :=
  ∃ d ∈ declarations f, findDeclaration (declarations f) d.name = some d ∧ Refers d.value ref

/-- What a name denotes is the first of its name. -/
theorem refers_le_of_find {f : SourceFile} {m : String} {d : Declaration}
    (h : findDeclaration (declarations f) m = some d) : Refers d.value ≤ FileRefers f := by
  intro ref href
  have hname : d.name = m := by simpa using List.find?_some h
  refine ⟨d, List.mem_of_find?_eq_some h, ?_, href⟩
  rw [hname]
  exact h

/-- A file that cannot be read refers to nothing. -/
theorem fileRefers_eq_bot {f : SourceFile} (h : declarations? f = none) : FileRefers f = ⊥ := by
  funext ref
  refine eq_bot_iff.2 ?_
  rintro ⟨d, hd, -⟩
  rw [declarations_eq_nil h] at hd
  cases hd

theorem fileRefers_iff {f : SourceFile} {ref : Reference} :
    FileRefers f ref ↔ ∃ ds, declarations? f = some ds ∧ ∃ d ∈ ds,
      findDeclaration ds d.name = some d ∧ ∃ n ∈ names d.value, ref = .topLevel n := by
  constructor
  · intro h
    cases hds : declarations? f with
    | none =>
      rw [fileRefers_eq_bot hds] at h
      exact h.elim
    | some ds =>
      rw [FileRefers, declarations_eq hds] at h
      exact ⟨ds, rfl, h⟩
  · rintro ⟨ds, hds, h⟩
    rw [FileRefers, declarations_eq hds]
    exact h

namespace Request

/-- The references that are recorded for the request in any case. -/
def Certain : Request → Reference → Prop
  | value d => Refers d.declaration.value
  | check f => FileRefers f
  | parseModule _ | lookup .. | emit _ => ⊥

/-- The references that can be recorded for the request. -/
def Possible : Request → Reference → Prop
  | parseModule _ | lookup .. => ⊥
  | value d => Refers d.declaration.value ⊔ FileRefers d.file
  | check f => FileRefers f
  | emit _ => ⊤

/-- The reference that whoever asks for the request gets besides. -/
def Sought : Request → Reference → Prop
  | lookup _ n => fun ref => ref = .topLevel n
  | parseModule _ | value _ | check _ | emit _ => ⊥

end Request

theorem sinks_eq (r : Request) (out : Request.Output r) : rules.Sinks r out = r.Sought := by
  funext ref
  cases r with
  | lookup f n =>
    simp [Rules.Sinks, Request.Sought, rules, Family.policyOf, Request.kind, Kind.policy]
  | parseModule | value | check | emit =>
    simp [Rules.Sinks, Request.Sought, Family.policyOf, Request.kind, Kind.policy]

/-! ## What is recorded -/

/-- What is recorded for each request that is served is within its bounds. -/
def Recorded (s : State family) : Prop :=
  ∀ r out, s.served? r = some out → r.Certain ≤ s.Records r ∧ s.Records r ≤ r.Possible

namespace Recorded

variable {s s' : State family}

/-- What is recorded for a check that is served is what its file refers to. -/
theorem check_iff (h : Recorded s) {f : SourceFile} {ok : Bool}
    (hok : s.served? (.check f) = some ok) (ref : Reference) :
    s.Records (.check f) ref ↔ FileRefers f ref := by
  obtain ⟨hcertain, hpossible⟩ := h (.check f) ok hok
  exact ⟨hpossible ref, hcertain ref⟩

theorem congr (h : Recorded s) (hserved : ∀ q, s'.served? q = s.served? q)
    (hrecorded : s'.recorder.recorded = s.recorder.recorded) : Recorded s' := by
  intro r out hr
  have hsame : s'.Records r = s.Records r := by
    funext ref
    rw [State.Records, State.recorded?, hrecorded]
    rfl
  rw [hsame]
  exact h r out ((hserved r).symm.trans hr)

theorem still (h : Recorded s) (hs : Still s s') : Recorded s' :=
  h.congr hs.served? hs.recorded

/-- Only what the engine keeps is served. -/
theorem inEngine_of_served {r : Request} {out : Request.Output r} (h : s.served? r = some out) :
    family.inEngine r = true := by
  cases r with
  | emit f => cases h
  | parseModule | lookup | value | check => rfl

theorem leaves {r : Request} {out : Request.Output r} (h : Recorded s)
    (hout : Leaves rules r out s s')
    (hr : family.inEngine r → r.Certain ≤ s'.Records r ∧ s'.Records r ≤ r.Possible) :
    Recorded s' := by
  intro q v hq
  by_cases hqr : q = r
  · subst hqr
    exact hr (inEngine_of_served hq)
  · have hsame : s'.Records q = s.Records q := by
      funext ref
      rw [State.Records, hout.recorded_of_ne q hqr]
      rfl
    rw [hsame]
    exact h q v ((hout.served?_of_ne lawful hqr).symm.trans hq)

/-- A command that gives no result leaves the records of what is still served. -/
theorem effect (h : Recorded s) {c : Command family} (hc : ¬ c.IsPut) (he : c.Effect s s') :
    Recorded s' := by
  intro r out hr
  have hclear : ¬ c.IsClearCache := by
    intro hclear
    rw [(he.cleared hclear r).2 (inEngine_of_served hr)] at hr
    cases hr
  have hsame : s'.Records r = s.Records r := by
    funext ref
    rw [State.Records, he.recorded hclear r out hr]
    rfl
  rw [hsame]
  exact h r out (he.served hc r out hr)

end Recorded

/-- On the way from the first state to the second, the innermost scope gets all of the references
`low`, and none that is not of `high`. -/
structure Collects (low high : Reference → Prop) (s s' : State family) : Prop where
  recorded : Recorded s'
  scopes : ∃ refs, low ≤ refs ∧ refs ≤ high ∧ Grown refs s.recorder.scopes s'.recorder.scopes

namespace Collects

variable {low low' high high' : Reference → Prop} {s₀ s s' : State family}

variable (high) in
theorem start (hs : Recorded s) : Collects ⊥ high s s :=
  ⟨hs, ⊥, le_rfl, bot_le, .rfl fun _ h => h⟩

theorem trans (h : Collects low high s₀ s) (h' : Collects low' high s s') :
    Collects (low ⊔ low') high s₀ s' := by
  obtain ⟨refs, hlow, hhigh, hgrown⟩ := h.scopes
  obtain ⟨refs', hlow', hhigh', hgrown'⟩ := h'.scopes
  exact ⟨h'.recorded, refs ⊔ refs', sup_le_sup hlow hlow', sup_le hhigh hhigh',
    hgrown.trans hgrown'⟩

theorem mono (h : Collects low high s s') (hlow : low' ≤ low) (hhigh : high ≤ high') :
    Collects low' high' s s' := by
  obtain ⟨refs, hl, hh, hgrown⟩ := h.scopes
  exact ⟨h.recorded, refs, hlow.trans hl, hh.trans hhigh, hgrown⟩

/-- Steps that write nothing. -/
theorem still (h : Collects low high s₀ s) (hs : Still s s')
    (hscopes : s'.recorder.scopes = s.recorder.scopes) : Collects low high s₀ s' := by
  obtain ⟨refs, hlow, hhigh, hgrown⟩ := h.scopes
  rw [← hscopes] at hgrown
  exact ⟨h.recorded.still hs, refs, hlow, hhigh, hgrown⟩

end Collects

/-! ## What bodies collect -/

/-- What the answer to a request adds to the innermost scope: an error adds nothing. -/
def Writes (r : Request) (s : State family) (o : Outcome family r) (s' : State family) : Prop :=
  match o with
  | .ok _ => Collects (r.Certain ⊔ r.Sought) (r.Possible ⊔ r.Sought) s s'
  | .error _ => Collects ⊥ ⊥ s s'

theorem writes_ok {r : Request} {out : Request.Output r} {refs : Reference → Prop}
    {s s' : State family} (hrec : Recorded s') (hcertain : r.Certain ≤ refs)
    (hpossible : refs ≤ r.Possible)
    (hgrown : Grown (fun ref => refs ref ∨ rules.Sinks r out ref) s.recorder.scopes
      s'.recorder.scopes) : Writes r s (.ok out) s' := by
  rw [sinks_eq] at hgrown
  exact ⟨hrec, refs ⊔ r.Sought, sup_le_sup hcertain le_rfl, sup_le_sup hpossible le_rfl, hgrown⟩

/-- The task collects what it should, if the answers it gets write what they should. -/
abbrev Gathers {α : Type} (stack : List Request) (t : Task family α) (s : State family)
    (Q : α → State family → Prop) : Prop :=
  t.Safe (fun _ s => Recorded s)
    (fun q s o s' => Answers stack q s o s' ∧ Answered q o s' ∧ Writes q s o s') stack s Q

section Gathers

variable {stack : List Request} {low high : Reference → Prop} {s₀ s : State family}

theorem gathers_report (h : Collects low high s₀ s) (f : SourceFile) (p : Problem) :
    Gathers stack (reportProblem f p) s fun _ s' => Collects low high s₀ s' := by
  unfold reportProblem
  induction p.diagnostics f generalizing s with
  | nil => exact h
  | cons d ds ih => exact ih (h.still (Still.report s d) rfl)

theorem gathers_say (h : Collects low high s₀ s) (level : LogLevel) (text : String) :
    Gathers stack (Task.say level text) s fun _ s' => Collects low high s₀ s' :=
  h.still (Still.log s level text) rfl

/-- A request for anything but a value is answered with a result, and writes what is certain. -/
theorem gathers_ask {α : Type} {q : Request} (hq : q.value? = none) (h : Collects low high s₀ s)
    (hhigh : q.Possible ⊔ q.Sought ≤ high) {next : Outcome family q → Task family α}
    {Q : α → State family → Prop}
    (hnext : ∀ out s', Meets q out → Collects (low ⊔ (q.Certain ⊔ q.Sought)) high s₀ s' →
      Gathers stack (next (.ok out)) s' Q) : Gathers stack (.ask q next) s Q := by
  refine ⟨h.recorded, fun o s' ⟨_, hanswered, hwrites⟩ => ?_⟩
  cases o with
  | ok out =>
    have hq' : Collects (q.Certain ⊔ q.Sought) high s s' := Collects.mono hwrites le_rfl hhigh
    exact hnext out s' (hanswered.meets out rfl) (h.trans hq')
  | error c =>
    obtain ⟨d, rfl, -⟩ := hanswered.error c rfl
    cases hq

theorem gathers_parse {f : SourceFile} (h : Collects low high s₀ s) :
    Gathers stack (Task.evaluateD (F := family) (.parseModule f) none) s fun ds? s' =>
      Meets (.parseModule f) ds? ∧ Collects low high s₀ s' := by
  refine gathers_ask rfl h (sup_le bot_le bot_le) fun ds? s' hds h' => ⟨hds, ?_⟩
  exact h'.mono le_sup_left le_rfl

theorem gathers_lookup {f : SourceFile} {m : String} (h : Collects low high s₀ s)
    (hm : high (.topLevel m)) :
    Gathers stack (Task.evaluateD (F := family) (.lookup f m) none) s fun d? s' =>
      Meets (.lookup f m) d? ∧ Collects (low ⊔ fun ref => ref = .topLevel m) high s₀ s' := by
  refine gathers_ask rfl h (sup_le bot_le ?_) fun d? s' hd h' => ⟨hd, ?_⟩
  · rintro ref rfl
    exact hm
  · exact h'.mono (sup_le_sup le_rfl le_sup_right) le_rfl

/-- A value that is active writes nothing. -/
theorem gathers_value {d : Definition} (h : Collects low high s₀ s)
    (hhigh : Refers d.declaration.value ⊔ FileRefers d.file ≤ high) :
    Gathers stack (Task.evaluateD (F := family) (.value d) none) s fun _ s' =>
      Collects low high s₀ s' ∧ (.value d ∉ stack →
        Collects (low ⊔ Refers d.declaration.value) high s₀ s') := by
  refine ⟨h.recorded, fun o s' ⟨hanswers, _, hwrites⟩ => ?_⟩
  cases o with
  | ok out =>
    have hd : Collects (Refers d.declaration.value) high s s' :=
      Collects.mono hwrites le_sup_left (sup_le hhigh bot_le)
    exact ⟨(h.trans hd).mono le_sup_left le_rfl, fun _ => h.trans hd⟩
  | error c =>
    have hd : Collects ⊥ high s s' := Collects.mono hwrites le_rfl bot_le
    have hactive : .value d ∈ stack := hanswers.error_iff.1 ⟨c, rfl⟩
    exact ⟨(h.trans hd).mono le_sup_left le_rfl, fun hne => absurd hactive hne⟩

theorem gathers_settle (h : Collects low high s₀ s) (f : SourceFile) (span : Span) (m : Int) :
    Gathers stack (settle f span m) s fun _ s' => Collects low high s₀ s' := by
  unfold settle
  cases fitting m with
  | some w => exact h
  | none => exact (gathers_report h f _).bind fun _ _ h' => h'

/-- A name is looked up, and so written, before the value of what it denotes is asked for. -/
theorem gathers_name {f : SourceFile} (hf : FileRefers f ≤ high) {m : String} (span : Span)
    (hm : high (.topLevel m)) (h : Collects low high s₀ s) :
    Gathers stack (fold f (.name m span)) s fun _ s' =>
      Collects (low ⊔ Refers (.name m span)) high s₀ s' := by
  have hself : Refers (.name m span) ≤ fun ref => ref = .topLevel m := by
    rintro ref ⟨n, hn, rfl⟩
    rw [List.mem_singleton.1 hn]
  refine (gathers_lookup h hm).bind ?_
  rintro d? s₁ ⟨⟨hfind, hfile⟩, hlooked⟩
  have h₁ := hlooked.mono (sup_le_sup le_rfl hself) le_rfl
  cases d? with
  | none => exact (gathers_report h₁ f _).bind fun _ _ h₂ => h₂
  | some d =>
    have hfirst : Refers d.declaration.value ≤ FileRefers f := refers_le_of_find hfind.symm
    have hfile : d.file = f := hfile d rfl
    have hhigh : Refers d.declaration.value ⊔ FileRefers d.file ≤ high := by
      rw [hfile]
      exact sup_le (hfirst.trans hf) hf
    exact (gathers_value h₁ hhigh).mono fun _ _ h₂ => h₂.1

theorem gathers_fold {f : SourceFile} (hf : FileRefers f ≤ high) (e : Expr)
    (he : Refers e ≤ high) (h : Collects low high s₀ s) :
    Gathers stack (fold f e) s fun _ s' => Collects (low ⊔ Refers e) high s₀ s' := by
  induction e generalizing s low with
  | integer v span =>
    refine h.mono (sup_le le_rfl ?_) le_rfl
    rintro ref ⟨n, hn, -⟩
    cases hn
  | name m span => exact gathers_name hf span (he _ ⟨m, List.mem_cons_self, rfl⟩) h
  | negate e span ih =>
    refine (ih he h).bind fun v? s₁ h₁ => ?_
    cases v? with
    | none => exact h₁
    | some v => exact gathers_settle h₁ f span (-v)
  | binary op l r span ihl ihr =>
    have hl : Refers l ≤ Refers (.binary op l r span) := fun ref ⟨n, hn, href⟩ =>
      ⟨n, List.mem_append_left _ hn, href⟩
    have hr : Refers r ≤ Refers (.binary op l r span) := fun ref ⟨n, hn, href⟩ =>
      ⟨n, List.mem_append_right _ hn, href⟩
    have hboth : Refers (.binary op l r span) ≤ Refers l ⊔ Refers r := by
      rintro ref ⟨n, hn, href⟩
      exact (List.mem_append.1 hn).imp (fun hn => ⟨n, hn, href⟩) fun hn => ⟨n, hn, href⟩
    -- the names of both operands are written, also if the first has no value
    refine (ihl (hl.trans he) h).bind fun a? s₁ h₁ => ?_
    refine (ihr (hr.trans he) h₁).bind fun b? s₂ h₂ => ?_
    have h₂ : Collects (low ⊔ Refers (.binary op l r span)) high s₀ s₂ :=
      h₂.mono (by rw [sup_assoc]; exact sup_le_sup le_rfl hboth) le_rfl
    cases a? with
    | none => exact h₂
    | some a =>
      cases b? with
      | none => exact h₂
      | some b => exact gathers_settle h₂ f span (op.apply a b)

/-- The reference is to a name in the value of one of the definitions that is the first of its name
among `all`. -/
def FirstRefers (all ds : List Definition) (ref : Reference) : Prop :=
  ∃ d ∈ ds, Definition.find? all d.name = some d ∧ Refers d.declaration.value ref

theorem firstRefers_cons_le {all ds : List Definition} {d : Definition} :
    FirstRefers all (d :: ds) ≤ Refers d.declaration.value ⊔ FirstRefers all ds := by
  rintro ref ⟨d', hd', hfirst, href⟩
  rcases List.mem_cons.1 hd' with rfl | hd'
  · exact .inl href
  · exact .inr ⟨d', hd', hfirst, href⟩

theorem firstRefers_cons_le_of_ne {all ds : List Definition} {d : Definition}
    (h : Definition.find? all d.name ≠ some d) :
    FirstRefers all (d :: ds) ≤ FirstRefers all ds := by
  rintro ref ⟨d', hd', hfirst, href⟩
  rcases List.mem_cons.1 hd' with rfl | hd'
  · exact absurd hfirst h
  · exact ⟨d', hd', hfirst, href⟩

/-- What the definitions of a reading refer to is what the file refers to. -/
theorem fileRefers_eq_firstRefers {f : SourceFile} {ds : List Definition}
    (hds : declarations? f = some (ds.map Definition.declaration)) :
    FileRefers f = FirstRefers ds ds := by
  funext ref
  rw [FileRefers, declarations_eq hds]
  refine propext ⟨?_, ?_⟩
  · rintro ⟨x, -, hx, href⟩
    rw [← map_find?] at hx
    obtain ⟨d, hd, rfl⟩ := Option.map_eq_some_iff.1 hx
    exact ⟨d, List.mem_of_find?_eq_some hd, hd, href⟩
  · rintro ⟨d, hd, hfirst, href⟩
    refine ⟨d.declaration, List.mem_map_of_mem hd, ?_, href⟩
    rw [← map_find?, show d.declaration.name = d.name from rfl, hfirst]
    rfl

theorem duplicate_eq_none_iff {all : List Definition} {d : Definition} (hd : d ∈ all) :
    ((Definition.find? all d.name).filter fun first => first ≠ d) = none ↔
      Definition.find? all d.name = some d := by
  obtain ⟨first, hfind⟩ := exists_find? hd
  rw [hfind, Option.filter_eq_none_iff]
  simp

theorem find?_ne_of_duplicate {all : List Definition} {d first : Definition} (hd : d ∈ all)
    (h : ((Definition.find? all d.name).filter fun first => first ≠ d) = some first) :
    Definition.find? all d.name ≠ some d := by
  intro hfirst
  rw [(duplicate_eq_none_iff hd).2 hfirst] at h
  cases h

theorem gathers_checkAll (hnone : values stack = []) {f : SourceFile} {all : List Definition}
    (hall : declarations? f = some (all.map Definition.declaration))
    (hfile : ∀ d ∈ all, d.file = f) (ds : List Definition) (hds : ∀ d ∈ ds, d ∈ all)
    (h : Collects low (FileRefers f) s₀ s) :
    Gathers stack (checkAll f all ds) s fun _ s' =>
      Collects (low ⊔ FirstRefers all ds) (FileRefers f) s₀ s' := by
  induction ds generalizing s low with
  | nil =>
    refine h.mono (sup_le le_rfl ?_) le_rfl
    rintro ref ⟨d, hd, -⟩
    cases hd
  | cons d ds ih =>
    have hrest : ∀ d ∈ ds, d ∈ all := fun d hd => hds d (List.mem_cons_of_mem _ hd)
    have hd : d ∈ all := hds d List.mem_cons_self
    rw [checkAll]
    cases hdup : (Definition.find? all d.name).filter fun first => first ≠ d with
    | some first =>
      have hnot : Definition.find? all d.name ≠ some d := find?_ne_of_duplicate hd hdup
      refine (gathers_report h f _).bind fun _ s₁ h₁ => ?_
      refine (ih hrest h₁).bind fun rest s₂ h₂ => ?_
      exact h₂.mono (sup_le_sup le_rfl (firstRefers_cons_le_of_ne hnot)) le_rfl
    | none =>
      have hfirst : Definition.find? all d.name = some d := (duplicate_eq_none_iff hd).1 hdup
      have hrefers : Refers d.declaration.value ≤ FileRefers f := by
        rw [fileRefers_eq_firstRefers hall]
        exact fun ref href => ⟨d, hd, hfirst, href⟩
      have hhigh : Refers d.declaration.value ⊔ FileRefers d.file ≤ FileRefers f := by
        rw [hfile d hd]
        exact sup_le hrefers le_rfl
      -- no value is active while a file is checked
      have hinactive : .value d ∉ stack := value_notMem hnone d
      refine (gathers_value h hhigh).bind ?_
      rintro v? s₁ ⟨-, h₁⟩
      refine (ih hrest (h₁ hinactive)).bind fun rest s₂ h₂ => ?_
      refine h₂.mono ?_ le_rfl
      rw [sup_assoc]
      exact sup_le_sup le_rfl firstRefers_cons_le

theorem gathers_check {f : SourceFile} (hnone : values stack = []) (hs : Recorded s) :
    Gathers stack (check f) s fun _ s' => Collects (FileRefers f) (FileRefers f) s s' := by
  refine (gathers_say (.start (FileRefers f) hs) _ _).bind fun _ s₁ h₁ => ?_
  refine (gathers_parse h₁).bind ?_
  rintro ds? s₂ ⟨⟨hds, hfile⟩, h₂⟩
  cases ds? with
  | none =>
    have hbot : FileRefers f = ⊥ := fileRefers_eq_bot hds.symm
    rw [hbot] at h₂ ⊢
    exact h₂
  | some ds =>
    refine (gathers_checkAll hnone hds.symm (hfile ds rfl) ds (fun _ hd => hd) h₂).mono ?_
    intro _ s₃ h₃
    refine h₃.mono ?_ le_rfl
    rw [← fileRefers_eq_firstRefers hds.symm]
    exact le_sup_right

/-- Every body collects what is certain, and nothing that is not possible. -/
theorem gathers_body {r : Request} (hnone : 2 < r.rank → values stack = []) (hs : Recorded s) :
    Gathers stack (rules.body r) s fun _ s' => Collects r.Certain r.Possible s s' := by
  cases r with
  | parseModule f =>
    refine (gathers_say (.start ⊥ hs) _ _).bind fun _ s₁ h₁ => ?_
    cases readDeclarations f.content with
    | error p => exact (gathers_report h₁ f p).bind fun _ _ h₂ => h₂
    | ok ds =>
      exact h₁.still (@Still.visit family s₁ (fun w => ⟨w.readings + 1⟩) fun _ _ => rfl) rfl
  | lookup f name => exact (gathers_parse (.start ⊥ hs)).bind fun _ _ h => h.2
  | value d =>
    refine (gathers_say (.start (Request.value d).Possible hs) _ _).bind fun _ s₁ h₁ => ?_
    refine (gathers_fold le_sup_right d.declaration.value le_sup_left h₁).mono ?_
    exact fun _ _ h₂ => h₂.mono le_sup_right le_rfl
  | check f => exact gathers_check (hnone (by simp [Request.rank])) hs
  | emit f =>
    -- what code writes goes nowhere: it is asked for from outside only
    have hkeeps : (rules.body (.emit f)).Keeps := keeps _
    have hrec : Gathers stack (rules.body (.emit f)) s fun _ s' => Recorded s' :=
      Task.safe_invariant (fun _ _ hstill hs => hs.still hstill) (fun _ _ _ hs => hs)
        (fun q s o s' _ _ ho => (by cases o <;> exact ho.2.2.recorded))
        (rules.body (.emit f)).asks_any hkeeps hs
    refine (hrec.frame hkeeps fun _ _ _ _ h => h.1.toFrame).mono ?_
    rintro _ s' ⟨hframe, hrec⟩
    obtain ⟨refs, hgrown⟩ := hframe.scopes
    exact ⟨hrec, refs, bot_le, le_top, hgrown⟩

end Gathers

/-- What every evaluation of the compiler records and writes. -/
def collecting (limit : Nat) : Layer (compiling limit) where
  before _ _ s := Recorded s
  after _ r s o s' := Writes r s o s'
  cycle := fun {n stack r s s'} _ hs _ hc => by
    have hrec : Recorded s' := hs.congr hc.served? (by rw [hc.recorder])
    refine ⟨hrec, ⊥, le_rfl, le_rfl, ?_⟩
    rw [hc.recorder]
    exact .rfl fun _ h => h
  hit := fun {n stack r s out s'} _ hs _ hout hserves => by
    obtain ⟨hcertain, hpossible⟩ := hs r out hout
    have hrec : Recorded s' := hs.congr (hserves.served? lawful) hserves.recorded
    exact writes_ok hrec hcertain hpossible hserves.scopes
  body := fun {n stack r s s₁} hb hs _ _ hin => by
    have hs₁ : Recorded s₁ := hs.congr hin.served? hin.recorded
    refine (gathers_body (values_eq_nil hb.1.linked) hs₁).mono ?_
    intro out s₂ hbody s' hout
    obtain ⟨refs, hcertain, hpossible, hgrown⟩ := hbody.scopes
    have hrec : Recorded s' := by
      refine hbody.recorded.leaves hout fun he => ?_
      have ho : family.opensScope r = true := family.opensScope_of_inEngine he
      have hrefs : s'.Records r = refs := funext fun ref => propext (hout.records hin hgrown ho ref)
      rw [hrefs]
      exact ⟨hcertain, hpossible⟩
    exact writes_ok hrec hcertain hpossible (hout.scopes hin hgrown)

end Demand.Compiler
