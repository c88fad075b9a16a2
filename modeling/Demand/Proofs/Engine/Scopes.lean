import Demand.Proofs.Engine.Moments

/-!
# Open scopes

A scope is open for each request with a scope of its own whose body runs, and for nothing else
(`Rules.exists_call`). So a scope is there whenever one is to be closed: from whatever state, no
evaluation stops for want of one (`Rules.findsScope_evaluate`).
-/

namespace Demand

variable {F : Family} {α β : Type}

/-! ## Open scopes -/

/-- There is one open scope for each of the requests that has one of its own. -/
def Balanced (running : List F.Request) (s : State F) : Prop :=
  s.recorder.scopes.length = running.countP F.opensScope

theorem Grown.length_eq {refs : Reference → Prop} {a b : List Scope} (h : Grown refs a b) :
    b.length = a.length := by
  cases h with
  | closed => rfl
  | opened _ => rfl

theorem Balanced.grown {running : List F.Request} {refs : Reference → Prop} {s s' : State F}
    (hs : Balanced running s) (h : Grown refs s.recorder.scopes s'.recorder.scopes) :
    Balanced running s' :=
  h.length_eq.trans hs

/-- The scope of a request is open when its body starts. -/
theorem Balanced.enters {stack : List F.Request} {r : F.Request} {s s₁ : State F}
    (hs : Balanced stack s) (h : Enters stack r s s₁) : Balanced (r :: stack) s₁ := by
  unfold Balanced at hs ⊢
  rw [h.scopes, List.countP_cons]
  split
  · rw [List.length_cons, hs]
  · exact hs

/-- The scope of a request is closed after its body. -/
theorem Balanced.closes {stack : List F.Request} {r : F.Request} {s s' : State F}
    (hs : Balanced (r :: stack) s) (h : Rules.Closes r s.recorder s'.recorder) :
    Balanced stack s' := by
  unfold Balanced at hs ⊢
  rw [List.countP_cons] at hs
  by_cases ho : F.opensScope r
  · obtain ⟨scope, outer, hscopes, -, hg⟩ := h.own_scope ho
    rw [hscopes, List.length_cons, if_pos ho] at hs
    rw [hg.length_eq]
    omega
  · rw [h.no_scope (by simpa using ho)]
    simpa [ho] using hs

/-- The moment is one of the call and not of a call that it makes: the request of the call is
asked for, or has become active. The bodies of the active requests run, but for the innermost
before and after its own, and there is one open scope for each of them that has one. -/
structure Moment.Of (c : Call F) (m : Moment F) : Prop where
  place : (m.fuel = c.fuel ∧ m.active = c.stack) ∨
    (m.fuel + 1 = c.fuel ∧ c.request ∉ c.stack ∧ m.active = c.request :: c.stack)
  running : m.running = m.active ∨ ∃ r, m.active = r :: m.running
  balanced : Balanced m.running m.state

theorem Moment.Of.stack_suffix {c : Call F} {m : Moment F} (h : m.Of c) : c.stack <:+ m.active := by
  rcases h.place with ⟨-, hactive⟩ | ⟨-, -, hactive⟩
  · exact hactive ▸ List.suffix_rfl
  · rw [hactive]
    exact List.suffix_cons _ _

/-- What holds at the start of a task and is kept by its steps and by the answers it gets holds at
all its own moments, and wherever it asks for something. -/
theorem Task.mem_course {evaluate : (r : F.Request) → Eval F (Outcome F r)}
    {inner : F.Request → State F → List (Moment F)} {n : Nat} {stack : List F.Request}
    {I : State F → Prop} (hstill : ∀ s s', Still s s' → I s → I s')
    (hev : ∀ q s o s', evaluate q s = .ok o s' → I s → I s') {t : Task F α} (hk : t.Keeps)
    {s : State F} (hs : I s) {m : Moment F} (h : m ∈ t.course evaluate inner n stack s) :
    (∃ q s₁, t.AsksAt evaluate stack s q s₁ ∧ I s₁ ∧ m ∈ inner q s₁) ∨
      (m.fuel = n ∧ m.active = stack ∧ m.running = stack ∧ I m.state) := by
  induction t generalizing s with
  | done a => cases h
  | ask r next ih =>
    rw [course, List.mem_append, Eval.mem_followed] at h
    rcases h with h | ⟨o, s₁, he, h⟩
    · exact .inl ⟨r, s, .inl ⟨rfl, rfl⟩, hs, h⟩
    · rcases ih o (hk o) (hev r s o s₁ he hs) h with ⟨q, s₂, ha, hq⟩ | h
      · exact .inl ⟨q, s₂, .inr ⟨o, s₁, he, ha⟩, hq⟩
      · exact .inr h
  | record ref next ih =>
    rcases List.mem_cons.1 h with rfl | h
    · exact .inr ⟨rfl, rfl, rfl, hs⟩
    · exact ih hk (hstill _ _ (Still.record s ref) hs) h
  | report d next ih =>
    rcases List.mem_cons.1 h with rfl | h
    · exact .inr ⟨rfl, rfl, rfl, hs⟩
    · exact ih hk (hstill _ _ (Still.report s d) hs) h
  | isActive r next ih =>
    rw [course, List.contains_eq_mem] at h
    simp only [asksAt_isActive]
    rcases List.mem_cons.1 h with rfl | h
    · exact .inr ⟨rfl, rfl, rfl, hs⟩
    · exact ih _ (hk _) hs h
  | current next ih =>
    rcases List.mem_cons.1 h with rfl | h
    · exact .inr ⟨rfl, rfl, rfl, hs⟩
    · exact ih _ (hk _) hs h
  | log level text next ih =>
    rcases List.mem_cons.1 h with rfl | h
    · exact .inr ⟨rfl, rfl, rfl, hs⟩
    · exact ih hk (hstill _ _ (Still.log s level text) hs) h
  | visit change next ih =>
    rcases List.mem_cons.1 h with rfl | h
    · exact .inr ⟨rfl, rfl, rfl, hs⟩
    · exact ih _ (hk.2 _) (hstill _ _ (Still.visit s hk.1) hs) h

namespace Rules

variable {rules : Rules F}

/-- The moments after the references of a request are written or recorded. -/
theorem of_parting {n : Nat} {stack : List F.Request} {r : F.Request} {out : F.Output r}
    {s s₁ : State F} {m : Moment F} (hr : r ∉ stack) (hs₁ : Balanced stack s₁)
    (h : m ∈ rules.parting n stack r out s₁) : m.Of ⟨n + 1, stack, r, s⟩ := by
  rw [parting, List.mem_cons, Eval.mem_followed] at h
  rcases h with rfl | ⟨_, s₂, hsink, h⟩
  · exact ⟨.inr ⟨rfl, hr, rfl⟩, .inr ⟨r, rfl⟩, hs₁⟩
  · obtain rfl := List.mem_singleton.1 h
    exact ⟨.inr ⟨rfl, hr, rfl⟩, .inr ⟨r, rfl⟩, hs₁.grown (grown_writeSink hsink)⟩

/-- The moments from the end of a body on. -/
theorem of_closing {n : Nat} {stack : List F.Request} {r : F.Request} {out : F.Output r}
    {s s₁ : State F} {m : Moment F} (hr : r ∉ stack) (hs₁ : Balanced (r :: stack) s₁)
    (h : m ∈ (⟨n, r :: stack, r :: stack, .ends r, s₁⟩ : Moment F) ::
      (close r).followed s₁ fun _ s₂ => rules.parting n stack r out s₂) :
    m.Of ⟨n + 1, stack, r, s⟩ := by
  rw [List.mem_cons, Eval.mem_followed] at h
  rcases h with rfl | ⟨_, s₂, hclose, h⟩
  · exact ⟨.inr ⟨rfl, hr, rfl⟩, .inl rfl, hs₁⟩
  · exact of_parting hr (hs₁.closes (closes_of_close hclose)) h

/-- The moments of a body are its own, or those of what it asks for. -/
theorem mem_inside (lawful : rules.Lawful) {n : Nat} {stack : List F.Request} {r : F.Request}
    {s : State F} (hs : Balanced (r :: stack) s) {m : Moment F}
    (h : m ∈ rules.inside n stack r s) :
    (∃ q s₁, (rules.body r).AsksAt (rules.evaluate n (r :: stack)) (r :: stack) s q s₁ ∧
      Balanced (r :: stack) s₁ ∧ m ∈ rules.course n (r :: stack) q s₁) ∨
    (m.fuel = n ∧ m.active = r :: stack ∧ m.running = r :: stack ∧
      Balanced (r :: stack) m.state) :=
  Task.mem_course (fun _ _ hstill hs => hs.grown hstill.scopes.choose_spec)
    (fun _ _ _ _ he hs => hs.grown (grown_evaluate he)) (lawful.body r) hs h

/-- A moment of a call is one of its own, or of a call that it makes. -/
theorem of_or_makes (lawful : rules.Lawful) {n : Nat} {stack : List F.Request} {r : F.Request}
    {s : State F} (hs : Balanced stack s) {m : Moment F}
    (h : m ∈ rules.course (n + 1) stack r s) :
    m.Of ⟨n + 1, stack, r, s⟩ ∨ ∃ q s₁, rules.Makes ⟨n + 1, stack, r, s⟩ ⟨n, r :: stack, q, s₁⟩ ∧
      Balanced (r :: stack) s₁ ∧ m ∈ rules.course n (r :: stack) q s₁ := by
  rw [course, List.mem_cons] at h
  rcases h with rfl | h
  · exact .inl ⟨.inl ⟨rfl, rfl⟩, .inl rfl, hs⟩
  by_cases hr : r ∈ stack
  · rw [if_pos (by simpa using hr)] at h
    cases h
  rw [if_neg (by simpa using hr)] at h
  cases hl : s.lookup r with
  | error f =>
    rw [hl] at h
    cases h
  | ok v =>
    rw [hl] at h
    cases v with
    | some out =>
      rw [List.mem_cons, Eval.mem_followed] at h
      rcases h with rfl | ⟨_, s₁, hreread, h⟩
      · exact .inl ⟨.inr ⟨rfl, hr, rfl⟩, .inr ⟨r, rfl⟩, hs⟩
      · exact .inl (of_parting hr (hs.grown (grown_reread hreread)) h)
    | none =>
      obtain ⟨_, s₁, hbegin, h⟩ := Eval.mem_followed.1 h
      have hs₁ : Balanced (r :: stack) s₁ := hs.enters (enters_of_begin hbegin)
      rw [List.mem_cons, List.mem_append, Eval.mem_followed] at h
      rcases h with rfl | h | ⟨out, s₂, hbody, h⟩
      · exact .inl ⟨.inr ⟨rfl, hr, rfl⟩, .inl rfl, hs₁⟩
      · rcases mem_inside lawful hs₁ h with ⟨q, s₂, hasks, hq⟩ | ⟨hfuel, hactive, hrunning, hbal⟩
        · exact .inr ⟨q, s₂, .intro hr hl hbegin hasks, hq⟩
        · refine .inl ⟨.inr ⟨by rw [hfuel], hr, hactive⟩, .inl (by rw [hrunning, hactive]), ?_⟩
          rw [hrunning]
          exact hbal
      · have hs₂ : Balanced (r :: stack) s₂ :=
          hs₁.grown (Task.frame_of_run lawful (lawful.body r) hbody).scopes.choose_spec
        exact .inl (of_closing hr hs₂ h)

/-- Every moment of an evaluation is a moment of one of its calls. -/
theorem exists_call (lawful : rules.Lawful) {n : Nat} {stack : List F.Request} {r : F.Request}
    {s : State F} (hs : Balanced stack s) {m : Moment F} (h : m ∈ rules.course n stack r s) :
    ∃ c, rules.Within ⟨n, stack, r, s⟩ c ∧ m.Of c := by
  induction n generalizing stack r s with
  | zero =>
    obtain rfl := List.mem_singleton.1 h
    exact ⟨_, .refl, .inl ⟨rfl, rfl⟩, .inl rfl, hs⟩
  | succ n ih =>
    rcases of_or_makes lawful hs h with hm | ⟨q, s₁, hmakes, hs₁, hm⟩
    · exact ⟨_, .refl, hm⟩
    · obtain ⟨c, hc, hm⟩ := ih hs₁ hm
      exact ⟨c, .head hmakes hc, hm⟩

/-- Every moment of evaluations from outside is a moment of one of their calls. -/
theorem exists_callsIn_of_moment (lawful : rules.Lawful) {n : Nat} {rs : List F.Request}
    {s : State F} (hs : s.recorder.scopes = []) {m : Moment F}
    (h : m ∈ rules.courseAll n rs s) : ∃ c, rules.CallsIn n rs s c ∧ m.Of c := by
  induction rs generalizing s with
  | nil => cases h
  | cons r rs ih =>
    rw [courseAll, List.mem_append, Eval.mem_followed] at h
    have hbal : Balanced [] s := by rw [Balanced, hs]; rfl
    rcases h with h | ⟨o, s₁, ho, h⟩
    · obtain ⟨c, hc, hm⟩ := exists_call lawful hbal h
      exact ⟨c, .inl hc, hm⟩
    · have hs₁ : Balanced [] s₁ := hbal.grown (grown_evaluate ho)
      obtain ⟨c, hc, hm⟩ := ih (List.length_eq_zero_iff.1 hs₁) h
      exact ⟨c, .inr ⟨o, s₁, ho, hc⟩, hm⟩

/-! ## What a scope collects -/

/-- The scope of the request of a call that computes it and leaves `out` and the state `s'`: it is
opened empty at a moment and closed at a later one, in between it collects what is written under
the request, and no other scope changes. What it has collected is then recorded for the request and
added to the scope around it. -/
structure Collects (rules : Rules F) (c : Call F) (out : F.Output c.request) (s' : State F)
    (opened : Moment F) (inside : List (Moment F)) (closed : Moment F) (scope : Scope) : Prop where
  begins : opened.deed = .begins c.request ∧ opened.running = c.request :: c.stack
  ends : closed.deed = .ends c.request ∧ closed.running = c.request :: c.stack
  under : ∀ m ∈ inside, c.request :: c.stack <:+ m.active
  empty : opened.state.recorder.scopes = [] :: c.state.recorder.scopes
  full : closed.state.recorder.scopes = scope :: c.state.recorder.scopes
  mem_iff : ∀ ref, ref ∈ scope ↔ rules.Written inside ref
  recorded : s'.recorded? c.request = if scope = [] then none else some scope
  around : Grown (fun ref => ref ∈ scope ∨ rules.Sinks c.request out ref)
    c.state.recorder.scopes s'.recorder.scopes

theorem Within.stack_suffix {c c' : Call F} (h : rules.Within c c') : c.stack <:+ c'.stack := by
  induction h with
  | refl => exact List.suffix_rfl
  | tail _ hm ih =>
    cases hm with
    | intro _ _ _ _ => exact ih.trans (List.suffix_cons _ _)

/-- A request is active at all moments of its body. -/
theorem suffix_of_mem_inside (lawful : rules.Lawful) {n : Nat} {stack : List F.Request}
    {r : F.Request} {s : State F} (hs : Balanced (r :: stack) s) {m : Moment F}
    (h : m ∈ rules.inside n stack r s) : r :: stack <:+ m.active := by
  rcases mem_inside lawful hs h with ⟨q, s₁, -, hs₁, hm⟩ | ⟨-, hactive, -⟩
  · obtain ⟨c, hc, hm⟩ := exists_call lawful hs₁ hm
    exact hc.stack_suffix.trans hm.stack_suffix
  · exact hactive ▸ List.suffix_rfl

/-- The course of a computation is that of its body between its beginning and its end. -/
theorem inside_infix_course_of_computed {n : Nat} {stack : List F.Request} {r : F.Request}
    {s s₁ s₂ : State F} {out : F.Output r} (hr : r ∉ stack) (hl : s.lookup r = .ok none)
    (hbegin : begin stack r s = .ok () s₁)
    (hbody : (rules.body r).run (rules.evaluate n (r :: stack)) (r :: stack) s₁ = .ok out s₂) :
    (⟨n, r :: stack, r :: stack, .begins r, s₁⟩ :: (rules.inside n stack r s₁ ++
      [⟨n, r :: stack, r :: stack, .ends r, s₂⟩])) <:+: rules.course (n + 1) stack r s := by
  rw [course_of_begun hr hl hbegin, Eval.followed_of_ok hbody]
  refine ⟨[⟨n + 1, stack, stack, .asks r, s⟩],
    (close r).followed s₂ fun _ s₃ => rules.parting n stack r out s₃, ?_⟩
  simp

/-- A computation with a scope of its own records what is written in it. -/
theorem exists_collects (lawful : rules.Lawful) {c : Call F} (hbal : Balanced c.stack c.state)
    (hc : c.computes) (ho : F.opensScope c.request) {o : Outcome F c.request} {s' : State F}
    (h : rules.answer c = .ok o s') : ∃ out opened inside closed scope, o = .ok out ∧
      opened :: (inside ++ [closed]) <:+: rules.courseOf c ∧
      rules.Collects c out s' opened inside closed scope := by
  obtain ⟨fuel, stack, r, s⟩ := c
  rw [Call.computes, Bool.and_eq_true, Option.isSome_iff_exists] at hc
  obtain ⟨hfuel, s₁, hbegun⟩ := hc
  obtain ⟨n, rfl⟩ : ∃ n, fuel = n + 1 := Nat.exists_eq_succ_of_ne_zero (by simpa using hfuel)
  obtain ⟨hr, hl, hbegin⟩ := begun?_eq_some_iff.1 hbegun
  dsimp only at hr hl hbegin hbal ho
  rcases evaluate_parts h with ⟨hmem, -⟩ | ⟨-, out, hl', -⟩ |
    ⟨-, -, s₁', out, s₂, hbegin', hbody, hfinish, rfl⟩
  · exact absurd hmem hr
  · rw [hl] at hl'
    cases hl'
  rw [hbegin] at hbegin'
  cases hbegin'
  have hin : Enters stack r s s₁ := enters_of_begin hbegin
  have hout : Eval.Ends (fun _ => True) (rules.finish r out) s₂ _ :=
    ends_finish (.inl fun _ _ => trivial) (.inl fun _ => trivial)
  have hempty : s₁.recorder.scopes = [] :: s.recorder.scopes := by rw [hin.scopes, if_pos ho]
  -- the scope that is open after the body is the one that was opened before it
  have hinside : Grown (rules.Written (rules.inside n stack r s₁)) s₁.recorder.scopes
      s₂.recorder.scopes := Task.grown_run (fun q s o s' => grown_evaluate) hbody
  rw [hempty] at hinside
  obtain ⟨scope, hfull, hscope⟩ := hinside.exists_of_cons
  obtain ⟨scope', outer, hs₂, hrecorded, haround⟩ := (hout.of_ok hfinish).own_scope ho
  rw [hfull] at hs₂
  cases hs₂
  exact ⟨out, ⟨n, r :: stack, r :: stack, .begins r, s₁⟩, rules.inside n stack r s₁,
    ⟨n, r :: stack, r :: stack, .ends r, s₂⟩, scope, rfl,
    inside_infix_course_of_computed hr hl hbegin hbody, ⟨rfl, rfl⟩, ⟨rfl, rfl⟩,
    fun m hm => suffix_of_mem_inside lawful (hbal.enters hin) hm, hempty, hfull,
    by simpa using hscope, hrecorded, haround⟩

end Rules

/-! ## No scope is missing -/

namespace Fault

/-- A fault other than that a scope is missing. -/
def HasScope (f : Fault F) : Prop :=
  ∀ r, f ≠ .noScope r

/-- Nothing here fails for want of a scope. -/
def Spares (x : Except (Fault F) α) : Prop :=
  ∀ f, x = .error f → f.HasScope

theorem Spares.bind {x : Except (Fault F) α} {f : α → Except (Fault F) β} (hx : Spares x)
    (hf : ∀ a, Spares (f a)) : Spares (x >>= f) := by
  cases x with
  | ok a => exact hf a
  | error e =>
    rintro f' ⟨⟩
    exact hx e rfl

theorem spares_ok (a : α) : Spares (.ok a : Except (Fault F) α) := by
  rintro f ⟨⟩

theorem spares_error {f : Fault F} (h : f.HasScope) : Spares (.error f : Except (Fault F) α) := by
  rintro f' ⟨⟩
  exact h

section Tables

variable {V : F.Request → Type} (t : Tables F V) (r : F.Request)

theorem spares_entriesOf (k : F.Kind) : Spares (t.entriesOf k) := by
  intro f h q
  rw [Tables.entriesOf_error h]
  simp

theorem spares_get? : Spares (t.get? r) :=
  (spares_entriesOf t _).bind fun _ => spares_ok _

theorem spares_put (v : V r) : Spares (t.put r v) :=
  (spares_entriesOf t _).bind fun _ => spares_ok _

theorem spares_insert (v : V r) : Spares (t.insert r v) := by
  refine (spares_entriesOf t _).bind fun es => ?_
  cases Entries.find? r es with
  | some _ => exact spares_error fun q => by simp
  | none => exact spares_ok _

theorem spares_erase : Spares (t.erase r) := by
  refine (spares_entriesOf t _).bind fun es => ?_
  cases Entries.find? r es with
  | some _ => exact spares_ok _
  | none => exact spares_ok _

end Tables

theorem spares_check (g : Registry F) (k : F.Kind) : Spares (g.check k) := by
  unfold Registry.check
  split
  · exact spares_error fun r => by simp
  · split
    · exact spares_error fun r => by simp
    · split
      · exact spares_ok _
      · exact spares_error fun r => by simp

theorem spares_install (g : Registry F) (z : ZoneRules F) : Spares (g.install z) := by
  unfold Registry.install
  split
  · exact spares_error fun r => by simp
  · exact spares_ok _

theorem spares_add (z : ZoneRules F) (k : F.Kind) : Spares (z.add k) := by
  unfold ZoneRules.add
  split
  · exact spares_error fun r => by simp
  · split
    · exact spares_error fun r => by simp
    · exact spares_ok _

theorem spares_ofKinds (zone : Zone) (kinds : List F.Kind) :
    Spares (ZoneRules.ofKinds zone kinds) := by
  unfold ZoneRules.ofKinds
  generalize (⟨zone, []⟩ : ZoneRules F) = z
  induction kinds generalizing z with
  | nil => exact spares_ok _
  | cons k kinds ih =>
    rw [List.foldlM_cons]
    exact (spares_add z k).bind ih

/-- Where a scope is open it can be closed. -/
theorem spares_closeScope {m : Recorder F} (h : m.scopes ≠ []) (r : F.Request) :
    Spares (m.closeScope r) := by
  unfold Recorder.closeScope
  split
  next hnil => exact absurd hnil h
  next scope outer hs =>
    dsimp only
    split
    · exact ((spares_erase _ r).bind fun _ => spares_ok _).bind fun _ => spares_ok _
    · exact (spares_put (V := fun _ => Scope) _ r scope).bind fun _ => spares_ok _

end Fault

namespace Eval

/-- From whatever state, the steps do not stop for want of a scope. -/
def FindsScope (m : Eval F α) : Prop :=
  ∀ s, Ends (fun e => ∀ r, e ≠ .fault (.noScope r)) m s fun _ _ => True

theorem FindsScope.bind {m : Eval F α} {f : α → Eval F β} (hm : m.FindsScope)
    (hf : ∀ a, (f a).FindsScope) : (m >>= f).FindsScope :=
  fun s => (hm s).bind fun a s' _ => hf a s'

theorem FindsScope.ite {p : Prop} [Decidable p] {m m' : Eval F α} (hm : m.FindsScope)
    (hm' : m'.FindsScope) : (if p then m else m').FindsScope := by
  split
  · exact hm
  · exact hm'

theorem findsScope_pure (a : α) : (pure a : Eval F α).FindsScope :=
  fun _ => trivial

theorem findsScope_get : (get : Eval F (State F)).FindsScope :=
  fun _ => trivial

theorem findsScope_modify (f : State F → State F) : (modify f : Eval F Unit).FindsScope :=
  fun _ => trivial

theorem findsScope_throw {f : Fault F} (h : f.HasScope) :
    (throw (.fault f) : Eval F α).FindsScope :=
  fun _ r he => h r (Stop.fault.inj he)

theorem findsScope_ofExcept {x : Except (Fault F) α} (h : Fault.Spares x) :
    (ofExcept x).FindsScope := by
  cases x with
  | ok a => exact findsScope_pure a
  | error f => exact findsScope_throw (h f rfl)

theorem findsScope_replayRecorded (r : F.Request) : (replayRecorded r).FindsScope := by
  refine findsScope_get.bind fun s => .ite ?_ (findsScope_pure _)
  refine (findsScope_ofExcept (Fault.spares_get? _ r)).bind fun v => ?_
  cases v with
  | none => exact findsScope_pure _
  | some scope => exact (findsScope_modify _).bind fun _ => findsScope_modify _

theorem findsScope_fileSource (r : F.Request) : (Rules.fileSource r).FindsScope := by
  refine .ite ?_ (findsScope_pure _)
  cases F.sourceFile r with
  | none => exact findsScope_pure _
  | some file =>
    refine (findsScope_modify _).bind fun _ => findsScope_get.bind fun s => ?_
    refine (findsScope_ofExcept (Fault.spares_get? _ r)).bind fun v => ?_
    cases v with
    | none => exact findsScope_pure _
    | some scope => exact findsScope_modify _

theorem findsScope_writeSink (rules : Rules F) (r : F.Request) (out : F.Output r) :
    (rules.writeSink r out).FindsScope :=
  .ite (FindsScope.bind (fun _ => trivial) fun _ => findsScope_modify _) (findsScope_pure _)

theorem findsScope_cacheResult (r : F.Request) (out : F.Output r) :
    (cacheResult r out).FindsScope := by
  rw [cacheResult_eq]
  refine findsScope_get.bind fun s => ?_
  exact (findsScope_ofExcept (Fault.spares_insert _ r out)).bind fun _ => findsScope_modify _

theorem findsScope_begin (stack : List F.Request) (r : F.Request) :
    (Rules.begin stack r).FindsScope := by
  refine (findsScope_modify _).bind fun _ => findsScope_get.bind fun s => ?_
  refine (findsScope_ofExcept (Fault.spares_check _ _)).bind fun _ => ?_
  exact (findsScope_modify _).bind fun _ => .ite (findsScope_modify _) (findsScope_pure _)

theorem findsScope_serve (rules : Rules F) (stack : List F.Request) (r : F.Request)
    (out : F.Output r) : (rules.serve stack r out).FindsScope := by
  refine (findsScope_modify _).bind fun _ => (findsScope_modify _).bind fun _ => ?_
  refine ((findsScope_replayRecorded r).bind fun _ => findsScope_writeSink rules r out).bind ?_
  exact fun _ => findsScope_fileSource r

theorem findsScope_keep (r : F.Request) (out : F.Output r) : (Rules.keep r out).FindsScope :=
  .ite (.ite (findsScope_modify _) (findsScope_cacheResult r out)) (findsScope_pure _)

theorem findsScope_closeOwn {r : F.Request} {s : State F}
    (h : F.opensScope r → s.recorder.scopes ≠ []) :
    Ends (fun e => ∀ q, e ≠ .fault (.noScope q)) (Rules.closeOwn r) s fun _ _ => True := by
  unfold Rules.closeOwn closeScope
  split
  next ho =>
    rw [ends_bind, ends_get]
    refine (findsScope_ofExcept (Fault.spares_closeScope (h ho) r) s).bind ?_
    rintro ⟨scope, m⟩ s' -
    dsimp only
    split <;> trivial
  next => trivial

end Eval

theorem State.spares_lookup (s : State F) (r : F.Request) : Fault.Spares (s.lookup r) := by
  unfold lookup
  split
  · exact Fault.spares_ok _
  · split
    · exact Fault.spares_ok _
    · exact Fault.spares_get? _ r

theorem Task.findsScope_run {evaluate : (r : F.Request) → Eval F (Outcome F r)}
    (hev : ∀ q, (evaluate q).FindsScope) (stack : List F.Request) (t : Task F α) :
    (t.run evaluate stack).FindsScope := by
  induction t with
  | done a => exact Eval.findsScope_pure a
  | ask r next ih => exact (hev r).bind ih
  | record ref next ih => exact (Eval.findsScope_modify _).bind fun _ => ih
  | report d next ih => exact (Eval.findsScope_modify _).bind fun _ => ih
  | isActive r next ih => exact ih _
  | current next ih => exact ih _
  | log level text next ih => exact (Eval.findsScope_modify _).bind fun _ => ih
  | visit change next ih => exact Eval.FindsScope.bind (fun _ => trivial) ih

namespace Rules

variable {rules : Rules F}

/-- No evaluation, from whatever state, stops for want of a scope. -/
theorem findsScope_evaluate (lawful : rules.Lawful) (n : Nat) (stack : List F.Request)
    (r : F.Request) : (rules.evaluate n stack r).FindsScope := by
  induction n generalizing stack r with
  | zero => exact fun s q => by simp
  | succ n ih =>
    intro s
    refine Eval.Ends.congr ?_ (evaluate_succ rules n stack r s)
    split
    · exact Eval.Ends.mono (ends_cycle (r := r)) fun _ _ _ => trivial
    cases hl : s.lookup r with
    | error f =>
      exact ((Eval.findsScope_modify _).bind fun _ =>
        Eval.findsScope_throw (State.spares_lookup s r f hl)) s
    | ok v =>
      cases v with
      | some out =>
        exact ((Eval.findsScope_serve rules stack r out).bind fun _ => Eval.findsScope_pure _) s
      | none =>
        refine (Eval.findsScope_begin stack r s).attach.bind fun _ s₁ ⟨hbegin, _⟩ => ?_
        have hrun := Task.findsScope_run (ih (r :: stack)) (r :: stack) (rules.body r) s₁
        refine hrun.attach.bind fun out s₂ ⟨hbody, _⟩ => ?_
        -- the body leaves the scope open that was opened before it
        have hopen : F.opensScope r → s₂.recorder.scopes ≠ [] := by
          intro ho hnil
          obtain ⟨refs, hgrown⟩ := (Task.frame_of_run lawful (lawful.body r) hbody).scopes
          rw [(enters_of_begin hbegin).scopes, if_pos ho, hnil] at hgrown
          cases hgrown
        have hfinish : Eval.Ends (fun e => ∀ q, e ≠ .fault (.noScope q)) (rules.finish r out) s₂
            fun _ _ => True := by
          unfold finish
          rw [Eval.ends_bind, Eval.ends_count]
          refine Eval.Ends.bind (Eval.findsScope_closeOwn ?_) fun _ s₃ _ => ?_
          · exact hopen
          exact ((Eval.findsScope_writeSink rules r out).bind fun _ =>
            (Eval.findsScope_keep r out).bind fun _ => Eval.findsScope_fileSource r) s₃
        exact hfinish.bind fun _ _ _ => trivial

theorem findsScope_evaluateAll (lawful : rules.Lawful) (n : Nat) (rs : List F.Request) :
    (rules.evaluateAll n rs).FindsScope := by
  induction rs with
  | nil => exact Eval.findsScope_pure _
  | cons r rs ih =>
    exact (findsScope_evaluate lawful n [] r).bind fun _ => ih.bind fun _ => Eval.findsScope_pure _

end Rules

namespace Command

variable {rules : Rules F}

open Eval

theorem findsScope_putResult (r : F.Request) (out : F.Output r) :
    (putResult r out).FindsScope := by
  have hput : (do
      log .trace s!"caching output of {F.text r} by hand"
      if (F.policyOf r).isExternal then storeResult r out else cacheResult r out :
        Eval F Unit).FindsScope :=
    (findsScope_modify _).bind fun _ => .ite (findsScope_modify _) (findsScope_cacheResult r out)
  unfold putResult
  dsimp only
  refine .ite ((findsScope_throw fun q => by simp).bind fun _ => ?_) ?_ <;>
    exact .ite ((findsScope_throw fun q => by simp).bind fun _ => hput) hput

theorem findsScope_clearResult (r : F.Request) : (clearResult r).FindsScope := by
  unfold clearResult
  split
  · exact findsScope_pure _
  · refine findsScope_get.bind fun s => ?_
    refine (findsScope_ofExcept ((Fault.spares_erase _ r).bind fun _ => Fault.spares_ok _)).bind ?_
    refine fun _ => (findsScope_modify _).bind fun _ => findsScope_get.bind fun s => ?_
    refine (findsScope_ofExcept (Fault.spares_erase _ r)).bind ?_
    rintro ⟨had, cache⟩
    exact (findsScope_modify _).bind fun _ => findsScope_pure _

theorem findsScope_hasResult (r : F.Request) : (hasResult r).FindsScope := by
  unfold hasResult cached?
  refine .ite (findsScope_pure _) (.ite (findsScope_get.bind fun _ => findsScope_pure _) ?_)
  refine (findsScope_get.bind fun s => ?_).bind fun _ => findsScope_pure _
  exact findsScope_ofExcept (Fault.spares_get? _ r)

theorem findsScope_register (zone : Zone) (kinds : List F.Kind) :
    (Eval.register zone kinds).FindsScope := by
  refine (findsScope_ofExcept (Fault.spares_ofKinds zone kinds)).bind fun z => ?_
  refine findsScope_get.bind fun s => ?_
  refine (findsScope_ofExcept (Fault.spares_install _ z)).bind fun _ => ?_
  exact (findsScope_modify _).bind fun _ => (findsScope_modify _).bind fun _ => findsScope_pure _

/-- No command stops for want of a scope. -/
theorem findsScope_run (lawful : rules.Lawful) (n : Nat) (c : Command F) :
    (c.run rules n).FindsScope := by
  cases c with
  | register zone kinds => exact (findsScope_register zone kinds).bind fun _ => findsScope_pure _
  | evaluate rs => exact (Rules.findsScope_evaluateAll lawful n rs).bind fun _ => findsScope_pure _
  | put r out => exact (findsScope_putResult r out).bind fun _ => findsScope_pure _
  | isCached r => exact (findsScope_hasResult r).bind fun _ => findsScope_pure _
  | clear r => exact (findsScope_clearResult r).bind fun _ => findsScope_pure _
  | clearCache | references | statistics | dump | graphviz | report | diagnostics
  | takeDiagnostics => exact fun _ => trivial

end Command

end Demand
