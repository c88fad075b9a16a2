import Demand.Proofs.Compiler.Session
import Demand.Proofs.Compiler.Supply
import Demand.Proofs.Engine.Order
import Demand.Proofs.Language.Parsing

/-!
# Nothing stops the compiler

Once the computations are given, every command but giving results or computations ends, whatever
results were given before (`Reached`), and so does every step of a session with the depth that it
allows (`Session.steps_end`). No scope is open between two commands, and an error is the answer only
to a value that is active (`Settles`).
-/

namespace Demand.Compiler

open Demand.Language

/-! ## States in which nothing is open -/

/-- What holds of the engine between commands. -/
structure Ready (s : State family) : Prop where
  owned : s.Owned
  known : ∀ k, s.registry.knows k
  closed : s.recorder.scopes = []

namespace Ready

variable {s s' : State family}

theorem frame (h : Ready s) (hf : Frame [] s s') : Ready s' := by
  refine ⟨hf.owned h.owned, fun k => by rw [hf.registry]; exact h.known k, ?_⟩
  obtain ⟨refs, hgrown⟩ := hf.scopes
  rw [h.closed] at hgrown
  generalize s'.recorder.scopes = scopes at hgrown ⊢
  cases hgrown
  rfl

theorem effect (h : Ready s) {c : Command family} (hc : ¬ c.IsPut) (he : c.Effect s s') :
    Ready s' where
  owned := ⟨he.cache_owned hc h.owned.1, he.recorded_owned h.owned.2⟩
  known k := he.knows k (h.known k)
  closed := by rw [he.scopes, h.closed]

/-- A command that evaluates nothing leaves nothing open, also if it stops at a fault. -/
theorem command (h : Ready s) {c : Command family} (hc : ¬ c.IsEvaluate) (n : Nat) :
    Ready ((c.run rules n).final s) := by
  have heffect := Command.effect lawful hc n s
  by_cases hp : c.IsPut
  · cases c with
    | put r out =>
      rw [Command.run, Eval.final_map _ fun _ => Reply.done] at heffect ⊢
      refine ⟨Command.owned_put (h.known _) h.owned out, fun k => heffect.knows k (h.known k), ?_⟩
      rw [heffect.scopes, h.closed]
    | _ => exact hp.elim
  · exact h.effect hp heffect

theorem quiet (h : Ready s) (hq : Quiet s s') : Ready s' :=
  hq.keeps (fun _ _ _ hc he h => h.effect hc he) h

theorem endures (h : Ready s) {limit : Nat} {fs : List SourceFile} (hs : Supply limit fs s) :
    Endures limit fs [] s :=
  ⟨hs, h.owned, h.known, by simp [values]⟩

end Ready

theorem Endures.single {limit : Nat} {fs : List SourceFile} {s : State family}
    (h : Endures limit fs [] s) (r : Request) : Endures limit fs [r] s := by
  cases r with
  | value d => exact h.push_value (.inl rfl)
  | parseModule | lookup | check | emit => exact h.push rfl

theorem reach_start {limit n : Nat} (hn : limit + 6 ≤ n) {fs : List SourceFile} {r : Request}
    (hr : r.file ∈ fs) : Reach limit n fs [] r := by
  refine ⟨.start r, List.nodup_nil, hr, ?_⟩
  cases r <;> simp only [Request.need, values, List.filterMap_nil, List.length_nil] <;> omega

/-! ## Evaluations from outside -/

/-- The call is answered, with an error only if it is for a value that is active, which the error
names. -/
def Settles (c : Call family) : Prop :=
  ∃ o s', rules.answer c = .ok o s' ∧
    ∀ e, o = .error e → e.request = c.request ∧ c.request ∈ c.stack ∧ ∃ d, c.request = .value d

section

variable {limit n : Nat} {fs : List SourceFile} {s : State family}

theorem ends_evaluate_of_supply (hn : limit + 6 ≤ n) (hs : Ready s) (hsupply : Supply limit fs s)
    {r : Request} (hr : r.file ∈ fs) :
    Eval.Ends (fun _ => False) (rules.evaluate n [] r) s fun o s' =>
      Ready s' ∧ Supply limit fs s' ∧ ∃ out, o = .ok out := by
  refine ((enduring limit fs).ends lawful n [] r s
    ⟨reach_start hn hr, (hs.endures hsupply).single r⟩).mono ?_
  rintro o s' ⟨hanswers, hsupply', -⟩
  refine ⟨hs.frame hanswers.toFrame, hsupply', ?_⟩
  cases o with
  | ok out => exact ⟨out, rfl⟩
  | error c => exact absurd (hanswers.error_iff.1 ⟨c, rfl⟩) List.not_mem_nil

theorem ends_evaluateAll_of_supply (hn : limit + 6 ≤ n) (hs : Ready s)
    (hsupply : Supply limit fs s) {rs : List Request} (hrs : ∀ r ∈ rs, r.file ∈ fs) :
    Eval.Ends (fun _ => False) (rules.evaluateAll n rs) s fun _ _ => True := by
  induction rs generalizing s with
  | nil => trivial
  | cons r rs ih =>
    refine (ends_evaluate_of_supply hn hs hsupply (hrs r List.mem_cons_self)).bind ?_
    rintro o s₁ ⟨hs₁, hsupply₁, -⟩
    exact (ih hs₁ hsupply₁ fun q hq => hrs q (List.mem_cons_of_mem r hq)).bind fun _ _ _ => trivial

theorem settles_of_within (hn : limit + 6 ≤ n) (hs : Ready s) (hsupply : Supply limit fs s)
    {r : Request} (hr : r.file ∈ fs) {c : Call family} (hc : rules.Within ⟨n, [], r, s⟩ c) :
    Settles c := by
  have hbefore : (enduring limit fs).Before c := (enduring limit fs).within lawful hc
    ⟨reach_start hn hr, (hs.endures hsupply).single r⟩
  obtain ⟨m, stack, q, s₁⟩ := c
  obtain ⟨o, s', ho, hanswers, -, herror⟩ :=
    ((enduring limit fs).ends lawful m stack q s₁ hbefore).exists_ok
  refine ⟨o, s', ho, ?_⟩
  rintro e rfl
  have hactive : q ∈ stack := hanswers.error_iff.1 ⟨e, rfl⟩
  refine ⟨?_, hactive, herror e rfl⟩
  have hpos : 0 < m := hbefore.1.pos hbefore.2
  obtain ⟨k, rfl⟩ : ∃ k, m = k + 1 := ⟨m - 1, by omega⟩
  rcases Rules.evaluate_cases ho with ⟨-, -, hcycle⟩ | ⟨hq, -⟩ | ⟨hq, -⟩
  · cases hcycle
    rfl
  · exact absurd hactive hq
  · exact absurd hactive hq

theorem settles_of_callsIn (hn : limit + 6 ≤ n) (hs : Ready s) (hsupply : Supply limit fs s)
    {rs : List Request} (hrs : ∀ r ∈ rs, r.file ∈ fs) {c : Call family}
    (hc : rules.CallsIn n rs s c) : Settles c := by
  induction rs generalizing s with
  | nil => exact hc.elim
  | cons r rs ih =>
    have hr := hrs r List.mem_cons_self
    rcases hc with hc | ⟨o, s₁, ho, hc⟩
    · exact settles_of_within hn hs hsupply hr hc
    · obtain ⟨hs₁, hsupply₁, -⟩ := (ends_evaluate_of_supply hn hs hsupply hr).of_ok ho
      exact ih hs₁ hsupply₁ (fun q hq => hrs q (List.mem_cons_of_mem r hq)) hc

end

/-! ## Whatever results are given -/

/-- The definitions that were looked up and are in the cache. -/
def lookedUp (s : State family) : List Definition :=
  (s.cache.entries Kind.lookup).filterMap fun e =>
    match e with
    | ⟨.lookup _ _, d?⟩ => d?
    | _ => none

theorem mem_lookedUp {s : State family} {f : SourceFile} {name : String} {d : Definition}
    (h : s.served? (.lookup f name) = some (some d)) : d ∈ lookedUp s := by
  rw [State.served?, if_pos (show family.inEngine (.lookup f name) = true from rfl)] at h
  exact List.mem_filterMap.2 ⟨_, Entries.mem_of_find? h, rfl⟩

theorem mem_wasRead {s : State family} {f : SourceFile} {ds : List Definition}
    (h : s.served? (.parseModule f) = some (some ds)) {d : Definition} (hd : d ∈ ds) :
    d ∈ wasRead s.cache := by
  rw [State.served?, if_pos (show family.inEngine (.parseModule f) = true from rfl)] at h
  exact List.mem_flatMap.2 ⟨_, Entries.mem_of_find? h, hd⟩

theorem length_lookedUp_le (s : State family) : (lookedUp s).length ≤ s.cache.size :=
  (List.length_filterMap_le _ _).trans (s.cache.length_entries_le Kind.lookup)

/-- However the cache was filled, finitely many definitions can be looked up. -/
theorem exists_supply (s : State family) (rs : List Request) :
    ∃ limit fs, Supply limit fs s ∧ ∀ r ∈ rs, r.file ∈ fs := by
  have hcovers : Covers
      (rs.map Request.file ++ (wasRead s.cache ++ lookedUp s).map Definition.file)
      (wasRead s.cache ++ lookedUp s) s := by
    constructor
    case read => exact fun f _ ds hds d hd => List.mem_append_left _ (mem_wasRead hds hd)
    case found => exact fun f _ name d hd => List.mem_append_right _ (mem_lookedUp hd)
    case closed => exact fun d hd => List.mem_append_right _ (List.mem_map_of_mem hd)
  refine ⟨_, _, ⟨_, hcovers, Nat.le_refl _⟩, fun r hr => ?_⟩
  exact List.mem_append_left _ (List.mem_map_of_mem hr)

/-- The states that commands lead to once the computations are given. A command that evaluates
nothing may stop at a fault, and any results may be given. -/
inductive Reached (options : Options) : State family → Prop
  | registered {s : State family} :
      registerAll { options := options, world := {} } = .ok () s → Reached options s
  | command {s : State family} {c : Command family} (n : Nat) : Reached options s →
      ¬ c.IsEvaluate → Reached options ((c.run rules n).final s)
  | evaluate {s s' : State family} {n : Nat} {rs : List Request} {as : List (Answer family)} :
      Reached options s → rules.evaluateAll n rs s = .ok as s' → Reached options s'

theorem ready_registered (options : Options) {s : State family}
    (h : registerAll { options := options, world := {} } = .ok () s) : Ready s := by
  cases h
  refine ⟨⟨Tables.owned_empty, Tables.owned_empty⟩, fun k => ?_, rfl⟩
  cases k <;> rfl

theorem Reached.ready {options : Options} {s : State family} (h : Reached options s) :
    Ready s := by
  induction h with
  | registered h => exact ready_registered options h
  | command n _ hc ih => exact ih.command hc n
  | evaluate _ heval ih =>
    refine Rules.evaluateAll_invariant (I := Ready) (fun r s o s' ho hs => ?_) heval ih
    exact hs.frame (Rules.answers_of_evaluate lawful ho).toFrame

/-- A command that gives nothing ends with enough fuel, and with more fuel ends in the same way. -/
theorem Ready.exists_reply {s : State family} (h : Ready s) {c : Command family} (hp : ¬ c.IsPut)
    (hg : ¬ c.IsRegister) : ∃ n reply s', ∀ m, n ≤ m → c.run rules m s = .ok reply s' := by
  by_cases he : c.IsEvaluate
  · cases c with
    | evaluate rs =>
      obtain ⟨limit, fs, hsupply, hrs⟩ := exists_supply s rs
      obtain ⟨as, s', hall, -⟩ :=
        (ends_evaluateAll_of_supply (Nat.le_refl (limit + 6)) h hsupply hrs).exists_ok
      refine ⟨limit + 6, .answers as, s', fun m hm => ?_⟩
      exact Eval.bind_eq_ok.2 ⟨as, s', Rules.evaluateAll_of_le hm hall, rfl⟩
    | _ => exact he.elim
  · obtain ⟨reply, s', hrun, -⟩ := (Command.ends lawful he hp hg h.owned h.known 0).exists_ok
    refine ⟨0, reply, s', fun m _ => ?_⟩
    rw [← hrun]
    cases c with
    | evaluate rs => exact absurd trivial he
    | _ => rfl

/-! ## Sessions -/

/-- The definitions in results that are served are some of these. -/
def Stocked (D : Definition → Prop) (s : State family) : Prop :=
  ∀ r out, s.served? r = some out → Session.Gives D r out

namespace Stocked

variable {D : Definition → Prop} {files : List SourceFile} {s s' : State family}

theorem congr (h : Stocked D s) (hs : ∀ q, s'.served? q = s.served? q) : Stocked D s' :=
  fun r out hr => h r out ((hs r).symm.trans hr)

/-- Nothing is served that was not served before, but for results with such definitions. -/
theorem of_served (h : Stocked D s) (hserved : ∀ q v, s'.served? q = some v →
    s.served? q = some v ∨ Session.Gives D q v) : Stocked D s' :=
  fun q v hv => (hserved q v hv).elim (h q v) id

theorem effect (h : Stocked D s) {c : Command family} (hc : ¬ c.IsPut) (he : c.Effect s s') :
    Stocked D s' :=
  h.of_served fun q v hv => .inl (he.served hc q v hv)

theorem quiet (h : Stocked D s) (hq : Quiet s s') : Stocked D s' :=
  hq.keeps (fun _ _ _ hc he h => h.effect hc he) h

/-- A result with such definitions may be given. -/
theorem put {r : Request} {out : Request.Output r} (h : Stocked D s)
    (hgives : Session.Gives D r out) :
    Stocked D ((Eval.putResult (F := family) r out).final s) := by
  refine h.of_served fun q v hv => ?_
  rcases Command.served_put lawful hv with hv | heq
  · exact .inl hv
  · cases heq
    exact .inr hgives

theorem leaves {r : Request} {out : Request.Output r} (h : Stocked D s)
    (hgives : Session.Gives D r out) (hout : Leaves rules r out s s') : Stocked D s' := by
  refine h.of_served fun q v hv => ?_
  by_cases hq : q = r
  · subst hq
    rw [hout.served?_self lawful hv]
    exact .inr hgives
  · exact .inl ((hout.served?_of_ne lawful hq).symm.trans hv)

/-- What is read of a file is of the file, and what is looked up was read or given. -/
theorem gives_of_sourced (h : Stocked (fun d => d.file ∈ files) s) {r : Request}
    (hr : r.file ∈ files) {out : Request.Output r} (hsourced : Sourced r out s) :
    Session.Gives (fun d => d.file ∈ files) r out := by
  cases r with
  | parseModule f =>
    rintro ds rfl d hd
    rw [(hsourced ds rfl).2 d hd]
    exact hr
  | lookup f name =>
    rintro d rfl
    obtain ⟨ds, hds, hmem⟩ := hsourced d rfl
    exact h _ _ hds ds rfl d hmem
  | value | check | emit => trivial

theorem unread_le_total (files : List SourceFile) (s : State family) :
    unread files s ≤ files.foldr (fun f n => f.content.length + n) 0 := by
  induction files with
  | nil => exact Nat.le_refl 0
  | cons f files ih =>
    have hf := length_declarations f
    rw [unread, List.foldr_cons]
    split <;> omega

/-- Looking up in the files leads to what is in the cache and to what they declare. -/
theorem supply (h : Stocked (fun d => d.file ∈ files) s) :
    Supply (s.cache.size + (wasRead s.cache).length +
      files.foldr (fun f n => f.content.length + n) 0) files s := by
  let known : List Definition :=
    (wasRead s.cache ++ lookedUp s).filter fun d => decide (d.file ∈ files)
  have hcovers : Covers files known s := by
    constructor
    case read =>
      intro f _ ds hds d hd
      refine List.mem_filter.2 ⟨List.mem_append_left _ (mem_wasRead hds hd), ?_⟩
      exact decide_eq_true (h _ _ hds ds rfl d hd)
    case found =>
      intro f _ name d hd
      refine List.mem_filter.2 ⟨List.mem_append_right _ (mem_lookedUp hd), ?_⟩
      exact decide_eq_true (h _ _ hd d rfl)
    case closed => exact fun d hd => of_decide_eq_true (List.mem_filter.1 hd).2
  refine ⟨known, hcovers, ?_⟩
  have hknown : known.length ≤ (wasRead s.cache).length + (lookedUp s).length := by
    rw [← List.length_append]
    exact List.length_filter_le _ _
  have hlooked := length_lookedUp_le s
  have hunread := unread_le_total files s
  omega

end Stocked

/-- Evaluations serve definitions of the files and no others. -/
def stocking (limit : Nat) (files : List SourceFile) : Layer (enduring limit files) where
  before _ _ s := Stocked (fun d => d.file ∈ files) s
  after _ _ _ _ s' := Stocked (fun d => d.file ∈ files) s'
  cycle := fun _ hs _ hc => hs.congr hc.served?
  hit := fun _ hs _ _ hserves => hs.congr (hserves.served? lawful)
  body := fun {n stack r s s₁} hb hs hr _ hin => by
    have hs₁ : Stocked (fun d => d.file ∈ files) s₁ := hs.congr hin.served?
    have hkept : (rules.body r).Safe (fun _ s => Stocked (fun d => d.file ∈ files) s)
        (fun q s o s' => Answers (r :: stack) q s o s' ∧
          (enduring limit files).after (r :: stack) q s o s' ∧
          Stocked (fun d => d.file ∈ files) s') (r :: stack) s₁
        fun _ s₂ => Stocked (fun d => d.file ∈ files) s₂ :=
      Task.safe_invariant (p := fun _ => True) (fun _ _ hstill h => h.congr hstill.served?)
        (fun _ _ _ h => h) (fun _ _ _ _ _ _ h => h.2.2) (Task.asks_any _) (keeps _) hs₁
    refine ((enduring_body hb.1 hb.2 hr hin).join hkept fun _ _ _ _ h => ⟨h.1, h.2.1⟩).mono ?_
    rintro out s₂ ⟨⟨-, hsourced⟩, hs₂⟩ s' hout
    exact hs₂.leaves (hs₂.gives_of_sourced hb.1.file hsourced) hout

/-- There is fuel enough for a request about one of the files. -/
theorem reach_depth {files : List SourceFile} {r : Request} (hr : r.file ∈ files)
    (s : State family) :
    Reach (s.cache.size + (wasRead s.cache).length +
      files.foldr (fun f n => f.content.length + n) 0) (depth files s) files [] r := by
  refine reach_start ?_ hr
  unfold depth
  omega

/-- A request about one of the files is answered with a result, and its definitions are of the
files. -/
theorem ends_evaluate_of_stocked {files : List SourceFile} {r : Request} (hr : r.file ∈ files)
    {s : State family} (hs : Ready s) (hstocked : Stocked (fun d => d.file ∈ files) s) :
    Eval.Ends (fun _ => False) (evaluate files r) s fun o s' =>
      (Ready s' ∧ Stocked (fun d => d.file ∈ files) s') ∧
      ∃ out, o = .ok out ∧ Session.Gives (fun d => d.file ∈ files) r out := by
  rw [evaluate, Eval.ends_bind, Eval.ends_get]
  refine ((stocking _ files).discipline.ends lawful _ [] r s
    ⟨⟨reach_depth hr s, (hs.endures hstocked.supply).single r⟩, hstocked⟩).mono ?_
  rintro o s' ⟨hanswers, -, hstocked'⟩
  refine ⟨⟨hs.frame hanswers.toFrame, hstocked'⟩, ?_⟩
  cases o with
  | error c => exact absurd (hanswers.error_iff.1 ⟨c, rfl⟩) List.not_mem_nil
  | ok out =>
    refine ⟨out, rfl, ?_⟩
    cases r with
    | parseModule | lookup => exact hstocked' _ _ (hanswers.kept _ rfl rfl)
    | value | check | emit => trivial

namespace Session

/-- What holds between steps, whatever results are given. -/
structure Lives (files : List SourceFile) (s : Session) : Prop where
  files_eq : s.files = files
  held : ∀ d ∈ s.held, d.file ∈ files
  ready : Ready s.state
  stocked : Stocked (fun d => d.file ∈ files) s.state

section Lives

variable {files : List SourceFile} {s : Session}

theorem Lives.ends_act (h : Lives files s) {st : Step} (hst : st.mayStop = false) :
    Eval.Ends (fun _ => False) (s.act st) s.state
      (Leaving (fun s => Ready s ∧ Stocked (fun d => d.file ∈ files) s)
        fun d => d.file ∈ files) := by
  refine ends_act_of (fun d hd => ?_) h.held ⟨h.ready, h.stocked⟩ (fun r s₁ hr hs₁ => ?_)
    (fun c he hp hg => ?_) hst
  · rw [h.files_eq]
    exact hd
  · rw [h.files_eq] at hr ⊢
    exact ends_evaluate_of_stocked hr hs₁.1 hs₁.2
  · exact (Command.ends lawful he hp hg h.ready.owned h.ready.known _).mono fun _ _ heffect =>
      ⟨h.ready.effect hp heffect, h.stocked.effect hp heffect⟩

theorem Lives.exists_act (h : Lives files s) (st : Step) (hst : st.mayStop = false) :
    ∃ x s', s.act st s.state = .ok x s' := by
  obtain ⟨x, s', hact, -⟩ := (h.ends_act hst).exists_ok
  exact ⟨x, s', hact⟩

/-- Every step keeps the session alive. -/
theorem Lives.step (h : Lives files s) (st : Step) : Lives files (s.step st).2 := by
  cases hstop : st.mayStop with
  | true =>
    cases st with
    | register =>
      rw [step_register]
      have hquiet := quiet_registerAll s.state
      exact ⟨h.files_eq, h.held, h.ready.quiet hquiet, h.stocked.quiet hquiet⟩
    | put g =>
      cases hg : s.given? g with
      | none =>
        have hact : s.act (.put g) s.state = .ok (.unknown, s.held) s.state := by
          rw [act, hg]
          rfl
        rw [step_of_ok hact]
        exact h
      | some x =>
        obtain ⟨r, out⟩ := x
        have hact : s.act (.put g) = s.command (.put r out) := by rw [act, hg]
        rw [step_of_command hact]
        refine ⟨h.files_eq, h.held, h.ready.command id _, ?_⟩
        rw [Command.run, Eval.final_map _ fun _ => Reply.done]
        exact h.stocked.put (gives_of_given? h.held hg)
    | _ => cases hstop
  | false =>
    obtain ⟨⟨response, held⟩, s', hact, hheld, hs'⟩ := (h.ends_act hstop).exists_ok
    rw [step_of_ok hact]
    exact ⟨h.files_eq, hheld, hs'.1, hs'.2⟩

theorem Lives.after (h : Lives files s) (steps : List Step) : Lives files (s.after steps) := by
  induction steps generalizing s with
  | nil => exact h
  | cons st steps ih => exact ih (h.step st)

end Lives

theorem start_lives (files : List SourceFile) (options : Options) :
    Lives files (start files options true) := by
  refine ⟨rfl, ?_, ready_registered options rfl, ?_⟩
  · intro d hd
    cases hd
  · intro r out hr
    rw [start_served?] at hr
    cases hr

/-- Once the computations are given, which succeeds, no step but giving results or computations
stops, and none ends the session: every other step is reported with a response. Between steps no
scope is open. Every call within an evaluation is answered, with an error only if it is for a value
that is active, so that the walk from the innermost active request comes to it. The same holds of
every command to the engine, and of every request, whatever results were given before, with enough
fuel. Whatever the parser expects it can read, and nothing stops it but a token that it does not
expect. -/
theorem steps_end (files : List SourceFile) (options : Options) :
    registerAll { options := options, world := {} } = .ok () (start files options true).state ∧
      (∀ steps : List Step,
        ((start files options true).run steps).length = steps.length ∧
        (∀ (k : Nat) (st : Step), steps[k]? = some st → st.mayStop = false →
          ∃ response n, ((start files options true).run steps)[k]? = some ⟨.ok response, n⟩) ∧
        ((start files options true).after steps).state.recorder.scopes = [] ∧
        ∀ (r : Request) (c : Call family), r.file ∈ files →
          rules.Within ⟨depth files ((start files options true).after steps).state, [], r,
            ((start files options true).after steps).state⟩ c → Settles c) ∧
      (∀ s, Reached options s → s.recorder.scopes = [] ∧
        (∀ c : Command family, ¬ c.IsPut → ¬ c.IsRegister →
          ∃ n reply s', ∀ m, n ≤ m → c.run rules m s = .ok reply s') ∧
        ∀ rs : List Request, ∃ n, ∀ m, n ≤ m → ∀ c, rules.CallsIn m rs s c → Settles c) ∧
      (∀ (p : Position) (t : Token), (∃ e ∈ p.expected, e.accepts t.kind) → (p.read t).isSome) ∧
      ∀ (ts : List Token) (n : Nat), ts.length < n → ∀ stop q,
        (Parser.declarations n).run ⟨ts, []⟩ = .error stop q → ∃ e, stop = .refused e := by
  have hstart := start_lives files options
  have hgoes : ∀ s : Session, Lives files s → ∀ st : Step, st.mayStop = false →
      ∃ x s', s.act st s.state = .ok x s' := fun _ h => h.exists_act
  have hstep : ∀ (s : Session) (st : Step), Lives files s → True → Lives files (s.step st).2 :=
    fun _ st h _ => h.step st
  refine ⟨rfl, fun steps => ⟨?_, ?_, ?_, ?_⟩, fun s hs => ⟨?_, ?_, ?_⟩, ?_, ?_⟩
  · exact length_run_of hgoes hstep hstart fun _ _ => trivial
  · intro k st hk hst
    obtain ⟨⟨response, held⟩, s', hact⟩ := (hstart.after (steps.take k)).exists_act st hst
    rw [run_getElem?_of hgoes hstep hstart (fun _ _ => trivial) hk, step_of_ok hact]
    exact ⟨response, _, rfl⟩
  · exact (hstart.after steps).ready.closed
  · intro r c hr hc
    have h := hstart.after steps
    refine settles_of_within ?_ h.ready h.stocked.supply hr hc
    unfold depth
    omega
  · exact hs.ready.closed
  · intro c hp hg
    exact hs.ready.exists_reply hp hg
  · intro rs
    obtain ⟨limit, fs, hsupply, hrs⟩ := exists_supply s rs
    exact ⟨limit + 6, fun m hm c hc => settles_of_callsIn hm hs.ready hsupply hrs hc⟩
  · intro p t
    exact (p.isSome_read_iff t).2
  · intro ts n hn stop q h
    exact (Parser.ends_declarations hn).refused_of_error h

/-- Steps that give results and computations again, wrong ones among them: a name for another one,
and a file that declares one name twice. Then they ask for what needs them. -/
def meddling : List Step :=
  [.hold 0, .put (.lookup 0 "b" (some 2)), .register, .put (.value 2 (some 7)),
    .put (.value 2 none), .clear (.parseModule 0), .put (.parseModule 0 (some [3, 0, 3])),
    .evaluate (.check 0)]

/-- A definition of a file that no session knows. -/
def stray : Definition where
  reading := 5
  file := { id := ⟨9⟩, name := "stray", content := "let z = z;" }
  declaration := ⟨"z", .empty, .name "z" .empty, .empty⟩

/-- The steps end, and so do evaluations where a name was given a definition of another file that
needs itself. -/
theorem steps_end_meddling :
    (∃ response n, ((start [sample] {} true).run meddling)[7]? = some ⟨.ok response, n⟩) ∧
      Settles ⟨depth [sample] ((start [sample] {} true).after meddling).state, [], .check sample,
        ((start [sample] {} true).after meddling).state⟩ ∧
      (∃ n reply s', ∀ m, n ≤ m →
        (Command.evaluate (F := family) [.check sample, .value stray]).run rules m
          ((Command.run rules 0 (.put (.lookup sample "b") (some stray))).final
            (start [sample] {} true).state) = .ok reply s') ∧
      ((Position.name .empty).read ⟨.word "z", .empty⟩).isSome ∧
      (∀ stop q, (Parser.declarations 2).run ⟨[⟨.integer 0, .empty⟩], []⟩ = .error stop q →
        ∃ e, stop = .refused e) := by
  obtain ⟨hstart, hsteps, hreached, hparser, hrefuses⟩ := steps_end [sample] {}
  obtain ⟨-, hreports, -, hcalls⟩ := hsteps meddling
  refine ⟨hreports 7 (.evaluate (.check 0)) rfl rfl, ?_, ?_, ?_, ?_⟩
  · exact hcalls (.check sample) _ List.mem_cons_self .refl
  · exact (hreached _ (.command 0 (.registered hstart) id)).2.1 _ id id
  · exact hparser _ _ ⟨.identifier, List.mem_cons_self, by decide⟩
  · exact hrefuses _ 2 (by decide)

end Session

end Demand.Compiler
