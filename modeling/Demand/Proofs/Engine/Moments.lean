import Demand.Proofs.Engine.Order

/-!
# The moments of an evaluation

The course of an evaluation is the list of its moments: what is about to be done, under which active
requests, and in which state (`Rules.course`). It tells what the state afterwards cannot: the writes
that fall between the opening and the closing of a scope (`Rules.grown_evaluate`). The course of a
call is a part of the course of every call that it is within (`Rules.Within.course_infix`).
-/

namespace Demand

variable {F : Family} {α β : Type}

/-! ## Courses -/

/-- What an evaluation is about to do. -/
inductive Deed (F : Family) where
  /-- Asks for a request. -/
  | asks (r : F.Request)
  /-- Starts the body of a request. If the request has a scope of its own, it is open by now. -/
  | begins (r : F.Request)
  /-- Records a reference in a body. -/
  | records (ref : Reference)
  /-- Anything else that a body does. -/
  | acts
  /-- Leaves the body of a request. If the request has a scope of its own, it is still open. -/
  | ends (r : F.Request)
  /-- Writes what is recorded for a request whose result is served. -/
  | replays (r : F.Request)
  /-- Writes the references of the result, if the request is a sink. -/
  | sinks (r : F.Request) (out : F.Output r)
  /-- Keeps the result, if it was computed, and files what is recorded. -/
  | parts (r : F.Request)

/-- A moment of an evaluation: the fuel that is left for what is asked for, the active requests and
those of them whose bodies run, the innermost first, what is about to be done, and the state. -/
structure Moment (F : Family) where
  fuel : Nat
  active : List F.Request
  running : List F.Request
  deed : Deed F
  state : State F

/-- The references that are written at the moment. -/
def Moment.Writes (rules : Rules F) (m : Moment F) (ref : Reference) : Prop :=
  match m.deed with
  | .records ref' => ref = ref'
  | .replays r => m.state.Records r ref
  | .sinks r out => rules.Sinks r out ref
  | _ => False

/-- The references that are written at these moments. -/
def Rules.Written (rules : Rules F) (ms : List (Moment F)) (ref : Reference) : Prop :=
  ∃ m ∈ ms, m.Writes rules ref

/-- What follows steps that end. -/
def Eval.followed (m : Eval F α) (s : State F) (f : α → State F → List β) : List β :=
  match m s with
  | .ok a s' => f a s'
  | .error _ _ => []

theorem Eval.followed_of_ok {m : Eval F α} {s s' : State F} {a : α} (h : m s = .ok a s')
    (f : α → State F → List β) : m.followed s f = f a s' := by
  rw [followed, h]

theorem Eval.mem_followed {m : Eval F α} {s : State F} {f : α → State F → List β} {b : β} :
    b ∈ m.followed s f ↔ ∃ a s', m s = .ok a s' ∧ b ∈ f a s' := by
  unfold followed
  cases m s with
  | ok a s' => simp
  | error e s' => simp

/-- The moments of a task that is run for the innermost of the active requests. The course of what
it asks for is `inner`. -/
def Task.course (evaluate : (r : F.Request) → Eval F (Outcome F r))
    (inner : F.Request → State F → List (Moment F)) (fuel : Nat) (stack : List F.Request) :
    Task F α → State F → List (Moment F)
  | .done _, _ => []
  | .ask r next, s => inner r s ++
    (evaluate r).followed s fun o s₁ => (next o).course evaluate inner fuel stack s₁
  | .record ref next, s => ⟨fuel, stack, stack, .records ref, s⟩ ::
    next.course evaluate inner fuel stack { s with recorder := s.recorder.write [ref] }
  | .report d next, s => ⟨fuel, stack, stack, .acts, s⟩ ::
    next.course evaluate inner fuel stack { s with diagnostics := s.diagnostics.report d }
  | .isActive r next, s => ⟨fuel, stack, stack, .acts, s⟩ ::
    (next (stack.contains r)).course evaluate inner fuel stack s
  | .current next, s => ⟨fuel, stack, stack, .acts, s⟩ ::
    (next stack.head?).course evaluate inner fuel stack s
  | .log level text next, s => ⟨fuel, stack, stack, .acts, s⟩ ::
    next.course evaluate inner fuel stack { s with log := s.log.write level text }
  | .visit change next, s => ⟨fuel, stack, stack, .acts, s⟩ ::
    (next s.world).course evaluate inner fuel stack { s with world := change s.world }

namespace Rules

/-- What serving a result does up to the references of a sink. -/
def reread (stack : List F.Request) (r : F.Request) : Eval F Unit := do
  Eval.recordEdge stack r
  Eval.log .trace (hitText r)
  Eval.replayRecorded r

/-- What is done after the body of a request up to the references of a sink. -/
def close (r : F.Request) : Eval F Unit := do
  Eval.count r
  closeOwn r

variable (rules : Rules F)

/-- The moments from the references of a sink on. -/
def parting (fuel : Nat) (stack : List F.Request) (r : F.Request) (out : F.Output r) (s : State F) :
    List (Moment F) :=
  ⟨fuel, r :: stack, stack, .sinks r out, s⟩ ::
    (rules.writeSink r out).followed s fun _ s₁ => [⟨fuel, r :: stack, stack, .parts r, s₁⟩]

/-- The moments of evaluating a request, with those of all that is asked for in it. -/
def course : Nat → List F.Request → F.Request → State F → List (Moment F)
  | 0, stack, r, s => [⟨0, stack, stack, .asks r, s⟩]
  | n + 1, stack, r, s => ⟨n + 1, stack, stack, .asks r, s⟩ ::
    if stack.contains r then []
    else match s.lookup r with
      | .error _ => []
      | .ok (some out) => ⟨n, r :: stack, stack, .replays r, s⟩ ::
        (reread stack r).followed s fun _ s₁ => rules.parting n stack r out s₁
      | .ok none => (begin stack r).followed s fun _ s₁ =>
        ⟨n, r :: stack, r :: stack, .begins r, s₁⟩ ::
          ((rules.body r).course (rules.evaluate n (r :: stack)) (course n (r :: stack)) n
              (r :: stack) s₁ ++
            ((rules.body r).run (rules.evaluate n (r :: stack)) (r :: stack)).followed s₁
              fun out s₂ => ⟨n, r :: stack, r :: stack, .ends r, s₂⟩ ::
                (close r).followed s₂ fun _ s₃ => rules.parting n stack r out s₃)

/-- The moments while the body of a request runs that starts in this state. -/
def inside (n : Nat) (stack : List F.Request) (r : F.Request) (s : State F) : List (Moment F) :=
  (rules.body r).course (rules.evaluate n (r :: stack)) (rules.course n (r :: stack)) n
    (r :: stack) s

/-- The moments of a call. -/
def courseOf (c : Call F) : List (Moment F) :=
  rules.course c.fuel c.stack c.request c.state

/-- The moments of evaluating requests from outside, one after the other. -/
def courseAll (n : Nat) : List F.Request → State F → List (Moment F)
  | [], _ => []
  | r :: rs, s => rules.course n [] r s ++
    (rules.evaluate n [] r).followed s fun _ s₁ => courseAll n rs s₁

end Rules

/-! ## What is written -/

section Written

variable {rules : Rules F} {m : Moment F} {ms ms' : List (Moment F)} {ref : Reference}

theorem Rules.not_written_nil (ref : Reference) : ¬ rules.Written [] ref := by
  simp [Written]

theorem Rules.written_cons :
    rules.Written (m :: ms) ref ↔ m.Writes rules ref ∨ rules.Written ms ref := by
  simp [Written]

theorem Rules.written_iff_cons (h : ¬ m.Writes rules ref) :
    rules.Written ms ref ↔ rules.Written (m :: ms) ref := by
  simp [written_cons, h]

theorem Rules.written_append :
    rules.Written (ms ++ ms') ref ↔ rules.Written ms ref ∨ rules.Written ms' ref := by
  simp [Written, or_and_right, exists_or]

/-- What a task writes is what it records and what the answers it gets write. -/
theorem Task.grown_run {n : Nat} {stack : List F.Request}
    (hev : ∀ q s o s', rules.evaluate n stack q s = .ok o s' →
      Grown (rules.Written (rules.course n stack q s)) s.recorder.scopes s'.recorder.scopes)
    {t : Task F α} {s s' : State F} {a : α}
    (h : t.run (rules.evaluate n stack) stack s = .ok a s') :
    Grown (rules.Written (t.course (rules.evaluate n stack) (rules.course n stack) n stack s))
      s.recorder.scopes s'.recorder.scopes := by
  induction t generalizing s with
  | done a =>
    cases h
    exact .rfl Rules.not_written_nil
  | ask q next ih =>
    rw [run] at h
    obtain ⟨o, s₁, hq, h⟩ := Eval.bind_eq_ok.1 h
    rw [course, Eval.followed_of_ok hq]
    exact ((hev q s o s₁ hq).trans (ih o h)).congr fun ref => Rules.written_append.symm
  | record ref next ih =>
    refine ((Grown.write s.recorder [ref]).trans (ih h)).congr fun ref' => ?_
    rw [course, Rules.written_cons, List.mem_singleton]
    rfl
  | report d next ih => exact (ih h).congr fun ref => Rules.written_iff_cons id
  | isActive q next ih =>
    rw [course, List.contains_eq_mem]
    exact (ih _ h).congr fun ref => Rules.written_iff_cons id
  | current next ih => exact (ih _ h).congr fun ref => Rules.written_iff_cons id
  | log level text next ih => exact (ih h).congr fun ref => Rules.written_iff_cons id
  | visit change next ih => exact (ih _ h).congr fun ref => Rules.written_iff_cons id

namespace Rules

variable {n : Nat} {stack : List F.Request} {r : F.Request} {out : F.Output r} {s s₁ s' : State F}

theorem course_of_mem (hr : r ∈ stack) :
    rules.course (n + 1) stack r s = [⟨n + 1, stack, stack, .asks r, s⟩] := by
  rw [course, if_pos (by simpa using hr)]

theorem course_of_served (hr : r ∉ stack) (hl : s.lookup r = .ok (some out)) :
    rules.course (n + 1) stack r s = ⟨n + 1, stack, stack, .asks r, s⟩ ::
      ⟨n, r :: stack, stack, .replays r, s⟩ ::
        (reread stack r).followed s fun _ s₁ => rules.parting n stack r out s₁ := by
  rw [course, if_neg (by simpa using hr), hl]

theorem course_of_begun (hr : r ∉ stack) (hl : s.lookup r = .ok none)
    (hbegin : begin stack r s = .ok () s₁) :
    rules.course (n + 1) stack r s = ⟨n + 1, stack, stack, .asks r, s⟩ ::
      ⟨n, r :: stack, r :: stack, .begins r, s₁⟩ :: (rules.inside n stack r s₁ ++
        ((rules.body r).run (rules.evaluate n (r :: stack)) (r :: stack)).followed s₁
          fun out s₂ => ⟨n, r :: stack, r :: stack, .ends r, s₂⟩ ::
            (close r).followed s₂ fun _ s₃ => rules.parting n stack r out s₃) := by
  rw [course, if_neg (by simpa using hr), hl]
  simp only [Eval.followed_of_ok hbegin]
  rfl

theorem grown_reread (h : reread stack r s = .ok () s') :
    Grown (s.Records r) s.recorder.scopes s'.recorder.scopes := by
  have hends : Eval.Ends (fun _ => True) (reread stack r) s fun _ s' =>
      Grown (s.Records r) s.recorder.scopes s'.recorder.scopes := by
    unfold reread
    rw [Eval.ends_bind, Eval.ends_recordEdge, Eval.ends_bind, Eval.ends_log]
    exact Eval.ends_replayRecorded (.inl fun _ _ => trivial) fun _ _ hg _ _ => hg
  exact hends.of_ok h

theorem grown_writeSink (h : rules.writeSink r out s = .ok () s') :
    Grown (rules.Sinks r out) s.recorder.scopes s'.recorder.scopes := by
  have hends : Eval.Ends (fun _ => True) (rules.writeSink r out) s fun _ s' =>
      Grown (rules.Sinks r out) s.recorder.scopes s'.recorder.scopes :=
    Eval.ends_writeSink fun _ hg _ _ => hg
  exact hends.of_ok h

theorem closes_of_close (h : close r s = .ok () s') : Closes r s.recorder s'.recorder := by
  have hends : Eval.Ends (fun _ => True) (close r) s fun _ s' =>
      Closes r s.recorder s'.recorder := by
    unfold close
    rw [Eval.ends_bind, Eval.ends_count]
    exact ends_closeOwn (.inl fun _ _ => trivial) fun _ _ hc => hc
  exact hends.of_ok h

theorem serve_eq : rules.serve stack r out =
    (do reread stack r; rules.writeSink r out; fileSource r) := by
  simp only [serve, reread, replay, bind_assoc]

theorem finish_eq : rules.finish r out =
    (do close r; rules.writeSink r out; keep r out; fileSource r) := by
  simp only [finish, close, bind_assoc]

theorem written_parting (h : rules.writeSink r out s = .ok () s') :
    rules.Sinks r out ref ↔ rules.Written (rules.parting n stack r out s) ref := by
  rw [parting, Eval.followed_of_ok h, written_cons, ← written_iff_cons id]
  simp only [not_written_nil, or_false]
  rfl

/-- A served result writes what is recorded for it and what it writes as a sink. -/
theorem written_course_of_served (hr : r ∉ stack) (hl : s.lookup r = .ok (some out))
    (h : rules.serve stack r out s = .ok () s') :
    s.Records r ref ∨ rules.Sinks r out ref ↔
      rules.Written (rules.course (n + 1) stack r s) ref := by
  rw [serve_eq] at h
  obtain ⟨_, s₁, hreread, h⟩ := Eval.bind_eq_ok.1 h
  obtain ⟨_, s₂, hsink, -⟩ := Eval.bind_eq_ok.1 h
  rw [course_of_served hr hl, Eval.followed_of_ok hreread, ← written_iff_cons id, written_cons,
    ← written_parting hsink]
  rfl

/-- A computed result writes what its body writes and what it writes as a sink. -/
theorem written_course_of_computed {s₂ : State F} (hr : r ∉ stack) (hl : s.lookup r = .ok none)
    (hbegin : begin stack r s = .ok () s₁)
    (hbody : (rules.body r).run (rules.evaluate n (r :: stack)) (r :: stack) s₁ = .ok out s₂)
    (h : rules.finish r out s₂ = .ok () s') :
    rules.Written (rules.inside n stack r s₁) ref ∨ rules.Sinks r out ref ↔
      rules.Written (rules.course (n + 1) stack r s) ref := by
  rw [finish_eq] at h
  obtain ⟨_, s₃, hclose, h⟩ := Eval.bind_eq_ok.1 h
  obtain ⟨_, s₄, hsink, -⟩ := Eval.bind_eq_ok.1 h
  rw [course_of_begun hr hl hbegin, Eval.followed_of_ok hbody, Eval.followed_of_ok hclose,
    ← written_iff_cons id, ← written_iff_cons id, written_append, ← written_iff_cons id,
    ← written_parting hsink]

/-- An evaluation adds to the innermost scope what is written in its course. -/
theorem grown_evaluate {o : Outcome F r} (h : rules.evaluate n stack r s = .ok o s') :
    Grown (rules.Written (rules.course n stack r s)) s.recorder.scopes s'.recorder.scopes := by
  induction n generalizing stack r s s' with
  | zero => cases h
  | succ n ih =>
    rcases evaluate_parts h with ⟨hr, hc, -⟩ | ⟨hr, out, hl, hserve, -⟩ |
      ⟨hr, hl, s₁, out, s₂, hbegin, hbody, hfinish, -⟩
    · rw [course_of_mem hr, hc.recorder]
      exact .rfl fun ref hw => not_written_nil ref ((written_iff_cons id).2 hw)
    · have hends : Eval.Ends (fun _ => True) (rules.serve stack r out) s _ :=
        ends_serve (.inl fun _ _ => trivial)
      exact (hends.of_ok hserve).scopes.congr fun ref => written_course_of_served hr hl hserve
    · have hout : Eval.Ends (fun _ => True) (rules.finish r out) s₂ _ :=
        ends_finish (.inl fun _ _ => trivial) (.inl fun _ => trivial)
      have hinside := Task.grown_run (fun q s o s' => ih) hbody
      refine ((hout.of_ok hfinish).scopes (enters_of_begin hbegin) hinside).congr fun ref => ?_
      exact written_course_of_computed hr hl hbegin hbody hfinish

end Rules

end Written

/-! ## The moments of the calls within a call -/

section Within

variable {rules : Rules F}

/-- The course of what a task asks for is a part of its own. -/
theorem Task.inner_infix_course {evaluate : (r : F.Request) → Eval F (Outcome F r)}
    {inner : F.Request → State F → List (Moment F)} {n : Nat} {stack : List F.Request}
    {t : Task F α} {s s₁ : State F} {q : F.Request} (h : t.AsksAt evaluate stack s q s₁) :
    inner q s₁ <:+: t.course evaluate inner n stack s := by
  induction t generalizing s with
  | done a => exact h.elim
  | ask r next ih =>
    rcases h with ⟨rfl, rfl⟩ | ⟨o, s₂, he, h⟩
    · exact (List.prefix_append _ _).isInfix
    · rw [course, Eval.followed_of_ok he]
      exact (ih o h).trans (List.suffix_append _ _).isInfix
  | record ref next ih => exact (ih h).trans (List.suffix_cons _ _).isInfix
  | report d next ih => exact (ih h).trans (List.suffix_cons _ _).isInfix
  | isActive r next ih =>
    rw [course, List.contains_eq_mem]
    exact (ih _ (asksAt_isActive.1 h)).trans (List.suffix_cons _ _).isInfix
  | current next ih => exact (ih _ h).trans (List.suffix_cons _ _).isInfix
  | log level text next ih => exact (ih h).trans (List.suffix_cons _ _).isInfix
  | visit change next ih => exact (ih _ h).trans (List.suffix_cons _ _).isInfix

namespace Rules

theorem inside_infix_course {n : Nat} {stack : List F.Request} {r : F.Request} {s s₁ : State F}
    (hr : r ∉ stack) (hl : s.lookup r = .ok none) (hbegin : begin stack r s = .ok () s₁) :
    rules.inside n stack r s₁ <:+: rules.course (n + 1) stack r s := by
  rw [course_of_begun hr hl hbegin]
  exact ⟨[_, _], _, rfl⟩

/-- The course of a call is a part of the course of the call that makes it. -/
theorem Makes.course_infix {c c' : Call F} (h : rules.Makes c c') :
    rules.courseOf c' <:+: rules.courseOf c := by
  cases h with
  | intro hr hl hbegin hasks =>
    exact (Task.inner_infix_course hasks).trans (inside_infix_course hr hl hbegin)

theorem Within.course_infix {c c' : Call F} (h : rules.Within c c') :
    rules.courseOf c' <:+: rules.courseOf c := by
  induction h with
  | refl => exact List.infix_rfl
  | tail _ hm ih => exact hm.course_infix.trans ih

theorem CallsIn.course_infix {n : Nat} {rs : List F.Request} {s : State F} {c : Call F}
    (h : rules.CallsIn n rs s c) : rules.courseOf c <:+: rules.courseAll n rs s := by
  induction rs generalizing s with
  | nil => exact h.elim
  | cons r rs ih =>
    rcases h with h | ⟨o, s₁, ho, h⟩
    · exact h.course_infix.trans (List.prefix_append _ _).isInfix
    · rw [courseAll, Eval.followed_of_ok ho]
      exact (ih h).trans (List.suffix_append _ _).isInfix

end Rules

end Within

end Demand
