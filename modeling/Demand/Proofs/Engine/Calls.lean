import Demand.Proofs.Engine.Discipline
import Mathlib.Data.List.Chain
import Mathlib.Data.List.Nodup
import Mathlib.Data.List.Perm.Subperm
import Mathlib.Logic.Relation

/-!
# The calls of a run

A call is a moment at which a request is asked for. The calls that a call makes in computing its
request, and those made in answering them, are the calls within it.
-/

namespace Demand

variable {F : Family} {α : Type}

/-! ## The moments of a run -/

/-- The run of the task from `s` asks for the request `q` in the state `s'`. -/
def Task.AsksAt (evaluate : (r : F.Request) → Eval F (Outcome F r)) (stack : List F.Request) :
    Task F α → State F → (q : F.Request) → State F → Prop
  | .done _, _, _, _ => False
  | .ask r next, s, q, s' => (q = r ∧ s' = s) ∨
    ∃ o s₁, evaluate r s = .ok o s₁ ∧ (next o).AsksAt evaluate stack s₁ q s'
  | .record ref next, s, q, s' =>
    next.AsksAt evaluate stack { s with recorder := s.recorder.write [ref] } q s'
  | .report d next, s, q, s' =>
    next.AsksAt evaluate stack { s with diagnostics := s.diagnostics.report d } q s'
  | .isActive r next, s, q, s' =>
    ∃ b : Bool, (b = true ↔ r ∈ stack) ∧ (next b).AsksAt evaluate stack s q s'
  | .current next, s, q, s' => (next stack.head?).AsksAt evaluate stack s q s'
  | .log level text next, s, q, s' =>
    next.AsksAt evaluate stack { s with log := s.log.write level text } q s'
  | .visit change next, s, q, s' =>
    (next s.world).AsksAt evaluate stack { s with world := change s.world } q s'

/-- A moment at which a request is asked for: the fuel that is left, the active requests, the
request and the state. -/
structure Call (F : Family) where
  fuel : Nat
  stack : List F.Request
  request : F.Request
  state : State F

/-- What the call gives. -/
def Rules.answer (rules : Rules F) (c : Call F) :
    EStateM.Result (Stop F) (State F) (Outcome F c.request) :=
  rules.evaluate c.fuel c.stack c.request c.state

/-- The request of the first call is computed, and its body makes the second call. -/
inductive Rules.Makes (rules : Rules F) : Call F → Call F → Prop
  | intro {n : Nat} {stack : List F.Request} {r q : F.Request} {s s₁ s₂ : State F} : r ∉ stack →
      s.lookup r = .ok none → begin stack r s = .ok () s₁ →
      (rules.body r).AsksAt (rules.evaluate n (r :: stack)) (r :: stack) s₁ q s₂ →
      Makes rules ⟨n + 1, stack, r, s⟩ ⟨n, r :: stack, q, s₂⟩

/-- The requests that are active while the call is answered: its own too, unless it is active
already. -/
def Call.active (c : Call F) : List F.Request :=
  c.stack.insert c.request

/-- The second call is the first or is made in answering it, at any depth. -/
def Rules.Within (rules : Rules F) : Call F → Call F → Prop :=
  Relation.ReflTransGen rules.Makes

theorem Task.asksAt_isActive {evaluate : (r : F.Request) → Eval F (Outcome F r)}
    {stack : List F.Request} {r q : F.Request} {next : Bool → Task F α} {s s' : State F} :
    (isActive r next).AsksAt evaluate stack s q s' ↔
      (next (r ∈ stack)).AsksAt evaluate stack s q s' := by
  constructor
  · rintro ⟨b, hb, h⟩
    obtain rfl : b = decide (r ∈ stack) := Bool.eq_iff_iff.2 (hb.trans decide_eq_true_iff.symm)
    exact h
  · exact fun h => ⟨_, decide_eq_true_iff, h⟩

namespace Task

variable {before : F.Request → State F → Prop}
  {after : (q : F.Request) → State F → Outcome F q → State F → Prop} {stack : List F.Request}
  {evaluate : (r : F.Request) → Eval F (Outcome F r)}

/-- A safe task asks only where it may. -/
theorem Safe.asksAt (hev : ∀ q s o s', before q s → evaluate q s = .ok o s' → after q s o s')
    {t : Task F α} {s s' : State F} {q : F.Request} {Q : α → State F → Prop}
    (h : t.Safe before after stack s Q) (ha : t.AsksAt evaluate stack s q s') : before q s' := by
  induction t generalizing s with
  | done a => exact ha.elim
  | ask r next ih =>
    rcases ha with ⟨rfl, rfl⟩ | ⟨o, s₁, he, ha⟩
    · exact h.1
    · exact ih o (h.2 o s₁ (hev _ _ _ _ h.1 he)) ha
  | record ref next ih => exact ih h ha
  | report d next ih => exact ih h ha
  | isActive r next ih =>
    obtain ⟨b, hb, ha⟩ := ha
    exact ih b (h b hb) ha
  | current next ih => exact ih _ h ha
  | log level text next ih => exact ih h ha
  | visit change next ih => exact ih _ h ha

theorem Asks.asksAt {p : F.Request → Prop} {t : Task F α} (h : t.Asks p) {s s' : State F}
    {q : F.Request} (ha : t.AsksAt evaluate stack s q s') : p q := by
  induction t generalizing s with
  | done a => exact ha.elim
  | ask r next ih =>
    rcases ha with ⟨rfl, rfl⟩ | ⟨o, s₁, he, ha⟩
    · exact h.1
    · exact ih o (h.2 o) ha
  | record ref next ih => exact ih h ha
  | report d next ih => exact ih h ha
  | isActive r next ih =>
    obtain ⟨b, -, ha⟩ := ha
    exact ih b (h b) ha
  | current next ih => exact ih _ (h _) ha
  | log level text next ih => exact ih h ha
  | visit change next ih => exact ih _ (h _) ha

end Task

namespace Discipline

variable {rules : Rules F} {stops : Stop F → Prop} (d : Discipline rules stops)

/-- The discipline holds before a call. -/
def Before (c : Call F) : Prop :=
  d.before c.fuel c.stack c.request c.state

/-- The calls that a disciplined call makes are disciplined. -/
theorem makes (lawful : rules.Lawful) {c c' : Call F} (hm : rules.Makes c c') (hb : d.Before c) :
    d.Before c' := by
  cases hm with
  | @intro n stack r q s s₁ s₂ hr hl hbegin hasks =>
    have hsafe := d.body hb hr (State.served?_of_lookup hl) (Rules.enters_of_begin hbegin)
    refine hsafe.asksAt ?_ hasks
    intro q s o s' hbefore he
    exact (d.ends lawful n (r :: stack) q s hbefore).of_ok he

theorem within (lawful : rules.Lawful) {c c' : Call F} (hw : rules.Within c c')
    (hb : d.Before c) : d.Before c' := by
  induction hw with
  | refl => exact hb
  | tail _ hm ih => exact d.makes lawful hm ih

end Discipline

/-! ## Requests that lead to no cycle -/

section Grounded

variable {R : Type} {asks : R → R → Prop}

/-- No request that the request leads to leads to itself. -/
def Grounded (asks : R → R → Prop) (r : R) : Prop :=
  ∀ q, Relation.ReflTransGen asks r q → ¬ Relation.TransGen asks q q

theorem Grounded.of_asks {r q : R} (h : Grounded asks r) (hq : asks r q) : Grounded asks q :=
  fun p hp => h p (.head hq hp)

theorem Grounded.of_forall {r : R} (h : ∀ q, asks r q → Grounded asks q) : Grounded asks r := by
  intro q hq hcycle
  rcases hq.cases_head with rfl | ⟨p, hp, hq⟩
  · obtain ⟨p, hp, hr⟩ := Relation.TransGen.head'_iff.1 hcycle
    exact h p hp _ hr hcycle
  · exact h p hp q hq hcycle

/-- Requests that ask only for requests of lower ranks lead to no cycle. -/
theorem grounded_of_rank {P : R → Prop} (rank : R → Nat)
    (h : ∀ p, P p → ∀ q, asks p q → P q ∧ rank q < rank p) {r : R} (hr : P r) :
    (∀ q, Relation.ReflTransGen asks r q → P q) ∧ Grounded asks r := by
  have hreach : ∀ q, Relation.ReflTransGen asks r q → P q := by
    intro q hq
    induction hq with
    | refl => exact hr
    | tail _ hq ih => exact (h _ ih _ hq).1
  refine ⟨hreach, fun q hq hcycle => ?_⟩
  have hlt : ∀ p, Relation.TransGen asks q p → P p ∧ rank p < rank q := by
    intro p hp
    induction hp with
    | single hp => exact h _ (hreach q hq) _ hp
    | tail _ hp ih =>
      obtain ⟨hP, hlt⟩ := h _ ih.1 _ hp
      exact ⟨hP, Nat.lt_trans hlt ih.2⟩
  exact Nat.lt_irrefl _ (hlt q hcycle).2

/-- The request is asked for by the first of the active ones, and each of these by the next. -/
def Linked (asks : R → R → Prop) (stack : List R) (r : R) : Prop :=
  (r :: stack).IsChain fun a b => asks b a

theorem Linked.start (r : R) : Linked asks [] r :=
  List.isChain_singleton r

theorem Linked.push {stack : List R} {r q : R} (h : Linked asks stack r) (hq : asks r q) :
    Linked asks (r :: stack) q :=
  List.isChain_cons_cons.2 ⟨hq, h⟩

theorem Linked.mono {asks' : R → R → Prop} {stack : List R} {r : R} (h : Linked asks stack r)
    (hasks : ∀ a b, asks a b → asks' a b) : Linked asks' stack r :=
  h.imp fun a b => hasks b a

theorem Linked.tail {stack : List R} {r p : R} (h : Linked asks (p :: stack) r) :
    Linked asks stack p :=
  (List.isChain_cons_cons.1 h).2

/-- Every active request leads to the one that is asked for. -/
theorem Linked.leads {stack : List R} {r q : R} (h : Linked asks stack r) (hq : q ∈ stack) :
    Relation.TransGen asks q r := by
  induction stack generalizing r with
  | nil => cases hq
  | cons p stack ih =>
    obtain ⟨hp, hrest⟩ := List.isChain_cons_cons.1 h
    rcases List.mem_cons.1 hq with rfl | hq
    · exact .single hp
    · exact (ih hrest hq).tail hp

/-- An active request leads to those that became active after it. -/
theorem Linked.leads_above [DecidableEq R] {stack : List R} {p q r : R} (h : Linked asks stack p)
    (hr : r ∈ stack) (hq : q ∈ stack.takeWhile fun x => x ≠ r) : Relation.TransGen asks r q := by
  induction stack generalizing p with
  | nil => cases hr
  | cons x stack ih =>
    by_cases hx : x = r
    · rw [List.takeWhile_cons_of_neg (by simpa using hx)] at hq
      cases hq
    · rw [List.takeWhile_cons_of_pos (by simpa using hx)] at hq
      have hbelow : r ∈ stack := (List.mem_cons.1 hr).resolve_left (Ne.symm hx)
      rcases List.mem_cons.1 hq with rfl | hq
      · exact h.tail.leads hbelow
      · exact ih h.tail hbelow hq

/-- The way from an active request over those that became active after it to the one that is asked
for. -/
theorem Linked.isChain_above [DecidableEq R] {stack : List R} {p r : R} (h : Linked asks stack p)
    (hr : r ∈ stack) :
    (r :: (stack.takeWhile fun x => x ≠ r).reverse ++ [p]).IsChain asks := by
  induction stack generalizing p with
  | nil => cases hr
  | cons x stack ih =>
    have hp : asks x p := (List.isChain_cons_cons.1 h).1
    by_cases hx : x = r
    · rw [List.takeWhile_cons_of_neg (by simpa using hx), ← hx]
      simpa using hp
    · rw [List.takeWhile_cons_of_pos (by simpa using hx), List.reverse_cons]
      have hbelow : r ∈ stack := (List.mem_cons.1 hr).resolve_left (Ne.symm hx)
      rw [← List.cons_append, List.append_assoc, List.singleton_append]
      refine List.isChain_split.2 ⟨ih h.tail hbelow, ?_⟩
      simpa using hp

theorem Grounded.not_mem {stack : List R} {r : R} (hr : Grounded asks r)
    (h : Linked asks stack r) : r ∉ stack :=
  fun hmem => hr r .refl (h.leads hmem)

end Grounded

section Within

variable {rules : Rules F} {asks : F.Request → F.Request → Prop}
  (hasks : ∀ r, (rules.body r).Asks (asks r)) {c c' : Call F}

include hasks

/-- A request leads to those that are asked for within its call. -/
theorem Rules.Within.leads (h : rules.Within c c') :
    Relation.ReflTransGen asks c.request c'.request := by
  induction h with
  | refl => exact .refl
  | tail _ hm ih =>
    cases hm with
    | intro _ _ _ ha => exact ih.tail ((hasks _).asksAt ha)

theorem Rules.Within.linked (h : rules.Within c c') (hl : Linked asks c.stack c.request) :
    Linked asks c'.stack c'.request := by
  induction h with
  | refl => exact hl
  | tail _ hm ih =>
    cases hm with
    | intro _ _ _ ha => exact ih.push ((hasks _).asksAt ha)

omit hasks in
/-- A request is active at all calls that are made in answering it. -/
theorem Rules.Within.mem_stack (h : rules.Within c c') : c' = c ∨ c.request ∈ c'.stack := by
  induction h with
  | refl => exact .inl rfl
  | tail _ hm ih =>
    cases hm with
    | intro _ _ _ _ =>
      rcases ih with rfl | hr
      · exact .inr List.mem_cons_self
      · exact .inr (List.mem_cons_of_mem _ hr)

omit hasks in
theorem Rules.Within.nodup (h : rules.Within c c') (hc : c.stack.Nodup) : c'.stack.Nodup := by
  induction h with
  | refl => exact hc
  | tail _ hm ih =>
    cases hm with
    | intro hr _ _ _ => exact List.nodup_cons.2 ⟨hr, ih⟩

omit hasks in
/-- No request is active twice at a time. -/
theorem Rules.Within.nodup_active (h : rules.Within c c') (hc : c.stack.Nodup) :
    c'.active.Nodup :=
  (h.nodup hc).insert

/-- Nothing that a grounded request leads to is asked for while it is active. -/
theorem Grounded.not_mem_stack (hg : Grounded asks c.request) (hc : c.stack = [])
    (h : rules.Within c c') : c'.request ∉ c'.stack := by
  intro hmem
  have hlinked := h.linked hasks (by rw [hc]; exact .start c.request)
  exact hg c'.request (h.leads hasks) (hlinked.leads hmem)

end Within

/-! ## Disciplines that every run keeps -/

section Standing

variable {rules : Rules F}

/-- What was served at the start is served on, and no active request has a result. -/
structure Stands (s₀ : State F) (stack : List F.Request) (s : State F) : Prop where
  persists : Persists [] s₀ s
  unserved : ∀ q ∈ stack, s.served? q = none

theorem Stands.frame {s₀ s s' : State F} {stack : List F.Request} (h : Stands s₀ stack s)
    (hf : Frame stack s s') : Stands s₀ stack s' := by
  refine ⟨h.persists.trans (hf.toPersists.of_subset (by simp)), fun q hq => ?_⟩
  rw [hf.served_active q hq]
  exact h.unserved q hq

/-- Whatever a run does, what was served when it began is served at all its calls. -/
def standing (lawful : rules.Lawful) (s₀ : State F) : Discipline rules fun _ => True where
  before _ stack _ s := Stands s₀ stack s
  after _ _ _ _ _ := True
  exhausted _ := trivial
  faults _ := .inl fun _ _ => trivial
  cycle _ _ _ := trivial
  hit _ _ _ _ := trivial
  body := by
    intro n stack r s s₁ hb hr hnone hin
    have hs₁ : Stands s₀ (r :: stack) s₁ := by
      refine ⟨hb.persists.trans hin.persists, fun q hq => ?_⟩
      rw [hin.served?]
      rcases List.mem_cons.1 hq with rfl | hq
      · exact hnone
      · exact hb.unserved q hq
    refine (Task.safe_invariant (I := Stands s₀ (r :: stack)) (fun s s' h hs => hs.frame h.frame)
      (fun q s _ hs => hs) (fun q s o s' _ hs ho => hs.frame ho.1.toFrame)
      (rules.body r).asks_any (lawful.body r) hs₁).mono ?_
    exact fun _ _ _ _ _ => trivial

/-- What is served when a run begins is served at all its calls. -/
theorem Rules.Within.stands (lawful : rules.Lawful) {n : Nat} {r : F.Request} {s : State F}
    {c : Call F} (h : rules.Within ⟨n, [], r, s⟩ c) : Stands s c.stack c.state :=
  (standing lawful s).within lawful h ⟨.refl s, by simp⟩

/-- Nothing is asked of a run, which may stop for any reason but that a result is kept twice. -/
def unrestricted (lawful : rules.Lawful) {stops : Stop F → Prop} (hfault : Eval.Lenient stops)
    (hdepth : stops .exhausted) : Discipline rules stops where
  before _ _ _ _ := True
  after _ _ _ _ _ := True
  exhausted _ := hdepth
  faults _ := .inl hfault
  cycle _ _ _ := trivial
  hit _ _ _ _ := trivial
  body _ _ _ _ := (Task.safe_invariant (I := fun _ => True) (fun _ _ _ _ => trivial)
    (fun _ _ _ _ => trivial) (fun _ _ _ _ _ _ _ => trivial) (rules.body _).asks_any
    (lawful.body _) trivial).mono fun _ _ _ _ _ => trivial

theorem Rules.ends_answers (lawful : rules.Lawful) (n : Nat) (stack : List F.Request)
    (r : F.Request) (s : State F) :
    Eval.Ends (fun _ => True) (rules.evaluate n stack r) s (Answers stack r s) :=
  ((unrestricted lawful (fun _ _ => trivial) trivial).ends lawful n stack r s trivial).mono
    fun _ _ h => h.1

/-- No evaluation, from whatever state, keeps a result that is kept already. -/
theorem Rules.evaluate_ne_alreadyCached (lawful : rules.Lawful) (n : Nat) (stack : List F.Request)
    (r q : F.Request) (s s' : State F) :
    rules.evaluate n stack r s ≠ .error (.fault (.alreadyCached q)) s' := by
  let stops : Stop F → Prop := fun e => ∀ q, e ≠ .fault (.alreadyCached q)
  have hlenient : Eval.Lenient stops := fun f hf q he => hf q (Stop.fault.inj he)
  have hends := (unrestricted lawful hlenient (by simp [stops])).ends lawful n stack r s trivial
  intro h
  rw [Eval.Ends, h] at hends
  exact hends q rfl

theorem Rules.answers_of_evaluate (lawful : rules.Lawful) {n : Nat} {stack : List F.Request}
    {r : F.Request} {s s' : State F} {o : Outcome F r}
    (h : rules.evaluate n stack r s = .ok o s') : Answers stack r s o s' :=
  (ends_answers lawful n stack r s).of_ok h

/-- A task that is run under the active requests leaves what its answers leave. -/
theorem Task.frame_of_run (lawful : rules.Lawful) {n : Nat} {stack : List F.Request}
    {t : Task F α} (hk : t.Keeps) {s s' : State F} {a : α}
    (h : t.run (rules.evaluate n stack) stack s = .ok a s') : Frame stack s s' := by
  have hsafe : t.Safe (fun _ _ => True) (Answers stack) stack s fun _ s' => Frame stack s s' :=
    safe_invariant (fun _ _ hstill hs => hs.trans hstill.frame) (fun _ _ _ _ => trivial)
      (fun _ _ _ _ _ hs ho => hs.trans ho.toFrame) t.asks_any hk (.refl s)
  have hev : ∀ q s, True → Eval.Ends (fun _ => True) (rules.evaluate n stack q) s
      (Answers stack q s) := fun q s _ => Rules.ends_answers lawful n stack q s
  exact (ends_run hev t hsafe).of_ok h

end Standing

section Bounded

variable {rules : Rules F} {asks : F.Request → F.Request → Prop} {stops : Stop F → Prop}

/-- No stop is refused: the tables belong to known kinds and all computations that are needed are
known. -/
def Sound (stops : Stop F → Prop) (asks : F.Request → F.Request → Prop) (r : F.Request)
    (s : State F) : Prop :=
  (∀ f, stops (.fault f)) ∨
    s.Owned ∧ ∀ q, Relation.ReflTransGen asks r q → s.registry.knows (F.kind q)

theorem Sound.persists {stack : List F.Request} {r : F.Request} {s s' : State F}
    (h : Sound stops asks r s) (hp : Persists stack s s') : Sound stops asks r s' :=
  h.imp id fun ⟨hown, hknown⟩ => ⟨hp.owned hown, fun q hq => by rw [hp.registry]; exact hknown q hq⟩

theorem Sound.of_asks {r q : F.Request} {s : State F} (h : Sound stops asks r s)
    (hq : asks r q) : Sound stops asks q s :=
  h.imp id fun ⟨hown, hknown⟩ => ⟨hown, fun p hp => hknown p (.head hq hp)⟩

/-- The active requests are different, each asked for by the next, and there is fuel for all that
can still be asked for. -/
structure Bounded (asks : F.Request → F.Request → Prop) (bound n : Nat) (stack : List F.Request)
    (r : F.Request) : Prop where
  linked : Linked asks stack r
  nodup : stack.Nodup
  fuel : bound + 2 ≤ n + stack.length

theorem Bounded.push {bound n : Nat} {stack : List F.Request} {r q : F.Request}
    (h : Bounded asks bound (n + 1) stack r) (hr : r ∉ stack) (hq : asks r q) :
    Bounded asks bound n (r :: stack) q := by
  refine ⟨h.linked.push hq, List.nodup_cons.2 ⟨hr, h.nodup⟩, ?_⟩
  have := h.fuel
  rw [List.length_cons]
  omega

/-- All active requests but the first to be active are among those that are asked for. -/
theorem Linked.mem_of_dropLast {us stack : List F.Request} (hus : ∀ p q, asks p q → q ∈ us)
    {r : F.Request} (h : Linked asks stack r) : ∀ q ∈ (r :: stack).dropLast, q ∈ us := by
  induction stack generalizing r with
  | nil => simp
  | cons p stack ih =>
    obtain ⟨hp, hrest⟩ := List.isChain_cons_cons.1 h
    intro q hq
    rw [List.dropLast_cons_cons] at hq
    rcases List.mem_cons.1 hq with rfl | hq
    · exact hus p q hp
    · exact ih hrest q hq

/-- Active requests that are different are, but for one, different members of a list. -/
theorem Linked.length_le {us : List F.Request} (hus : ∀ p q, asks p q → q ∈ us)
    {stack : List F.Request} {r : F.Request} (h : Linked asks stack r)
    (hnodup : (r :: stack).Nodup) : stack.length ≤ us.length := by
  have hdrop : (r :: stack).dropLast.Nodup := hnodup.sublist (List.dropLast_sublist _)
  have hle := (List.subperm_of_subset hdrop (h.mem_of_dropLast hus)).length_le
  rw [List.length_dropLast, List.length_cons] at hle
  omega

/-- There is always fuel left. -/
theorem Bounded.pos {us : List F.Request} (hus : ∀ p q, asks p q → q ∈ us) {n : Nat}
    {stack : List F.Request} {r : F.Request} (h : Bounded asks us.length n stack r) : 0 < n := by
  have hfuel := h.fuel
  cases stack with
  | nil =>
    rw [List.length_nil] at hfuel
    omega
  | cons p rest =>
    have hle := h.linked.tail.length_le hus h.nodup
    rw [List.length_cons] at hfuel
    omega

/-- No more requests are active at a time than are mentioned, and one. -/
theorem Rules.Within.length_active_le (hasks : ∀ r, (rules.body r).Asks (asks r))
    {us : List F.Request} (hus : ∀ p q, asks p q → q ∈ us) {c c' : Call F}
    (h : rules.Within c c') (hc : c.stack = []) : c'.active.length ≤ us.length + 1 := by
  have hlinked : Linked asks c'.stack c'.request :=
    h.linked hasks (by rw [hc]; exact .start c.request)
  have hnodup : c'.stack.Nodup := h.nodup (by rw [hc]; exact List.nodup_nil)
  unfold Call.active
  by_cases hr : c'.request ∈ c'.stack
  · rw [List.insert_of_mem hr]
    obtain ⟨n, stack, r, s⟩ := c'
    cases stack with
    | nil => cases hr
    | cons p rest =>
      have hle := hlinked.tail.length_le hus hnodup
      rw [List.length_cons]
      omega
  · have hle := hlinked.length_le hus (List.nodup_cons.2 ⟨hr, hnodup⟩)
    rw [List.insert_of_not_mem hr, List.length_cons]
    omega

/-- A request that leads to finitely many others is answered. -/
def bounded (lawful : rules.Lawful) (hasks : ∀ r, (rules.body r).Asks (asks r))
    (us : List F.Request) (hus : ∀ p q, asks p q → q ∈ us) (stops : Stop F → Prop) :
    Discipline rules stops where
  before n stack r s := Bounded asks us.length n stack r ∧ Sound stops asks r s
  after _ _ _ _ _ := True
  exhausted hb := absurd (hb.1.pos hus) (Nat.lt_irrefl 0)
  faults hb := hb.2.imp (fun h f _ => h f) fun ⟨hown, hknown⟩ => ⟨hown, hknown _ .refl⟩
  cycle _ _ _ := trivial
  hit _ _ _ _ := trivial
  body := by
    intro n stack r s s₁ hb hr hnone hin
    have hs₁ : Sound stops asks r s₁ := hb.2.persists (hin.persists : Persists [] s s₁)
    refine (Task.safe_invariant (I := Sound stops asks r)
      (fun s s' h hs => hs.persists (h.frame : Frame [] s s').toPersists)
      (fun q s hq hs => ⟨hb.1.push hr hq, hs.of_asks hq⟩)
      (fun q s o s' _ hs ho => hs.persists ho.1.toPersists) (hasks r) (lawful.body r) hs₁).mono ?_
    exact fun _ _ _ _ _ => trivial

end Bounded

/-! ## What is filed -/

section Filing

variable {rules : Rules F}

/-- The three ways to an answer, by what is done on them. -/
theorem Rules.evaluate_parts {n : Nat} {stack : List F.Request} {r : F.Request} {s s' : State F}
    {o : Outcome F r} (h : rules.evaluate (n + 1) stack r s = .ok o s') :
    (r ∈ stack ∧ Cycles stack r s s' ∧ o = .error ⟨r⟩) ∨
    (r ∉ stack ∧ ∃ out, s.lookup r = .ok (some out) ∧ rules.serve stack r out s = .ok () s' ∧
      o = .ok out) ∨
    (r ∉ stack ∧ s.lookup r = .ok none ∧ ∃ s₁ out s₂, begin stack r s = .ok () s₁ ∧
      (rules.body r).run (rules.evaluate n (r :: stack)) (r :: stack) s₁ = .ok out s₂ ∧
      rules.finish r out s₂ = .ok () s' ∧ o = .ok out) := by
  rw [evaluate_succ] at h
  by_cases hr : r ∈ stack
  · rw [if_pos hr] at h
    obtain ⟨ho, hc⟩ := Eval.Ends.of_ok (@ends_cycle F (fun _ => True) s stack r) h
    exact .inl ⟨hr, hc, ho⟩
  · rw [if_neg hr] at h
    cases hl : s.lookup r with
    | error f =>
      rw [hl] at h
      obtain ⟨_, _, _, h⟩ := Eval.bind_eq_ok.1 h
      cases h
    | ok v =>
      rw [hl] at h
      cases v with
      | some out =>
        obtain ⟨_, s₁, hserve, h⟩ := Eval.bind_eq_ok.1 h
        cases h
        exact .inr (.inl ⟨hr, out, rfl, hserve, rfl⟩)
      | none =>
        obtain ⟨_, s₁, hbegin, h⟩ := Eval.bind_eq_ok.1 h
        obtain ⟨out, s₂, hbody, h⟩ := Eval.bind_eq_ok.1 h
        obtain ⟨_, s₃, hfinish, h⟩ := Eval.bind_eq_ok.1 h
        cases h
        exact .inr (.inr ⟨hr, rfl, s₁, out, s₂, hbegin, hbody, hfinish, rfl⟩)

/-- The three ways to an answer. -/
theorem Rules.evaluate_cases {n : Nat} {stack : List F.Request} {r : F.Request} {s s' : State F}
    {o : Outcome F r} (h : rules.evaluate (n + 1) stack r s = .ok o s') :
    (r ∈ stack ∧ Cycles stack r s s' ∧ o = .error ⟨r⟩) ∨
    (r ∉ stack ∧ ∃ out, s.lookup r = .ok (some out) ∧ Serves rules stack r out s s' ∧ o = .ok out) ∨
    (r ∉ stack ∧ s.lookup r = .ok none ∧ ∃ s₁ out s₂, begin stack r s = .ok () s₁ ∧
      Enters stack r s s₁ ∧
      (rules.body r).run (rules.evaluate n (r :: stack)) (r :: stack) s₁ = .ok out s₂ ∧
      Leaves rules r out s₂ s' ∧ o = .ok out) := by
  rcases evaluate_parts h with hc | ⟨hr, out, hl, hserve, ho⟩ |
    ⟨hr, hl, s₁, out, s₂, hbegin, hbody, hfinish, ho⟩
  · exact .inl hc
  · have hends : Eval.Ends (fun _ => True) (rules.serve stack r out) s _ :=
      ends_serve (.inl fun _ _ => trivial)
    exact .inr (.inl ⟨hr, out, hl, hends.of_ok hserve, ho⟩)
  · have hout : Eval.Ends (fun _ => True) (rules.finish r out) s₂ _ :=
      ends_finish (.inl fun _ _ => trivial) (.inl fun _ => trivial)
    exact .inr (.inr ⟨hr, hl, s₁, out, s₂, hbegin, enters_of_begin hbegin, hbody,
      hout.of_ok hfinish, ho⟩)

/-- An error says that its request is active. -/
theorem Rules.mem_stack_of_error {n : Nat} {stack : List F.Request} {r : F.Request}
    {s s' : State F} {e : Cyclical F} (h : rules.evaluate n stack r s = .ok (.error e) s') :
    r ∈ stack ∧ e.request = r := by
  cases n with
  | zero => cases h
  | succ n =>
    rcases evaluate_cases h with ⟨hr, -, ho⟩ | ⟨-, out, -, -, ho⟩ |
      ⟨-, -, s₁, out, s₂, -, -, -, -, ho⟩
    · cases ho
      exact ⟨hr, rfl⟩
    · cases ho
    · cases ho

/-- A run that ends has an answer to everything it asks for. -/
theorem Task.exists_of_asksAt {evaluate : (r : F.Request) → Eval F (Outcome F r)}
    {stack : List F.Request} {t : Task F α} {s s' s₁ : State F} {a : α} {q : F.Request}
    (h : t.run evaluate stack s = .ok a s') (ha : t.AsksAt evaluate stack s q s₁) :
    ∃ o s₂, evaluate q s₁ = .ok o s₂ := by
  induction t generalizing s with
  | done a => exact ha.elim
  | ask r next ih =>
    rw [run] at h
    obtain ⟨o, s₂, ho, h⟩ := Eval.bind_eq_ok.1 h
    rcases ha with ⟨rfl, rfl⟩ | ⟨o', s₂', ho', ha⟩
    · exact ⟨o, s₂, ho⟩
    · rw [ho] at ho'
      cases ho'
      exact ih o h ha
  | record ref next ih => exact ih h ha
  | report d next ih => exact ih h ha
  | isActive r next ih => exact ih _ h (asksAt_isActive.1 ha)
  | current next ih => exact ih _ h ha
  | log level text next ih => exact ih h ha
  | visit change next ih => exact ih _ h ha

/-- A call that is answered has all calls within it answered. -/
theorem Rules.Within.exists_answer {c c' : Call F} (hw : rules.Within c c')
    (h : ∃ o s', rules.answer c = .ok o s') : ∃ o s', rules.answer c' = .ok o s' := by
  induction hw with
  | refl => exact h
  | tail _ hm ih =>
    cases hm with
    | @intro n stack r q s s₁ s₂ hr hl hbegin hasks =>
      obtain ⟨o, s', ho⟩ := ih
      rcases evaluate_cases ho with ⟨hmem, -⟩ | ⟨-, out, hl', -⟩ |
        ⟨-, -, s₁', out, s₂', hbegin', -, hbody, -⟩
      · exact absurd hmem hr
      · rw [hl] at hl'
        cases hl'
      · rw [hbegin] at hbegin'
        cases hbegin'
        exact Task.exists_of_asksAt hbody hasks

/-- What the steps of a task other than asking leave as it is, besides what is still. -/
structure Idle (s s' : State F) : Prop where
  options : s'.options = s.options
  statistics : s'.statistics = s.statistics
  graph : s'.graph = s.graph
  filed : s'.recorder.filed = s.recorder.filed

/-- If every answer adds what the calls within it add, so does a task that asks for answers. -/
theorem Task.collected_run {n : Nat} {stack : List F.Request} {I P : State F → Prop}
    {Q : Call F → Prop} (hidle : ∀ s s', Idle s s' → I s → I s' ∧ (P s' ↔ P s))
    (hev : ∀ q s o s', I s → rules.evaluate n stack q s = .ok o s' →
      I s' ∧ (P s' ↔ P s ∨ ∃ c, rules.Within ⟨n, stack, q, s⟩ c ∧ Q c))
    {t : Task F α} {s s' : State F} {a : α} (hs : I s)
    (h : t.run (rules.evaluate n stack) stack s = .ok a s') :
    I s' ∧ (P s' ↔ P s ∨
      ∃ q s₁ c, t.AsksAt (rules.evaluate n stack) stack s q s₁ ∧
        rules.Within ⟨n, stack, q, s₁⟩ c ∧ Q c) := by
  induction t generalizing s with
  | done a =>
    cases h
    exact ⟨hs, by simp [AsksAt]⟩
  | ask q next ih =>
    rw [run] at h
    obtain ⟨o, s₁, hq, h⟩ := Eval.bind_eq_ok.1 h
    obtain ⟨hs₁, hfirst⟩ := hev q s o s₁ hs hq
    obtain ⟨hs', hrest⟩ := ih o hs₁ h
    refine ⟨hs', ?_⟩
    rw [hrest, hfirst]
    constructor
    · rintro ((h | ⟨c, hc⟩) | ⟨q', s₂, c, ha, hc⟩)
      · exact .inl h
      · exact .inr ⟨q, s, c, .inl ⟨rfl, rfl⟩, hc⟩
      · exact .inr ⟨q', s₂, c, .inr ⟨o, s₁, hq, ha⟩, hc⟩
    · rintro (h | ⟨q', s₂, c, ⟨rfl, rfl⟩ | ⟨o', s₁', hq', ha⟩, hc⟩)
      · exact .inl (.inl h)
      · exact .inl (.inr ⟨c, hc⟩)
      · rw [hq] at hq'
        cases hq'
        exact .inr ⟨q', s₂, c, ha, hc⟩
  | record ref next ih =>
    obtain ⟨hs₁, hP⟩ := hidle s { s with recorder := s.recorder.write [ref] }
      ⟨rfl, rfl, rfl, Recorder.write_filed _ _⟩ hs
    rw [← hP]
    exact ih hs₁ h
  | report d next ih =>
    obtain ⟨hs₁, hP⟩ := hidle s { s with diagnostics := s.diagnostics.report d }
      ⟨rfl, rfl, rfl, rfl⟩ hs
    rw [← hP]
    exact ih hs₁ h
  | isActive q next ih =>
    simp only [asksAt_isActive]
    exact ih _ hs h
  | current next ih => exact ih _ hs h
  | log level text next ih =>
    obtain ⟨hs₁, hP⟩ := hidle s { s with log := s.log.write level text } ⟨rfl, rfl, rfl, rfl⟩ hs
    rw [← hP]
    exact ih hs₁ h
  | visit change next ih =>
    obtain ⟨hs₁, hP⟩ := hidle s { s with world := change s.world } ⟨rfl, rfl, rfl, rfl⟩ hs
    rw [← hP]
    exact ih _ hs₁ h

/-- The call is of a source of the file that is not active, and the reference is recorded for it
when it is answered. -/
def Rules.Files (rules : Rules F) (f : FileId) (ref : Reference) (c : Call F) : Prop :=
  c.request ∉ c.stack ∧ F.FiledUnder c.request f ∧
    ∃ o s', rules.answer c = .ok o s' ∧ s'.Records c.request ref

/-- The calls within a call that computes its request are itself and those within the calls that
its body makes. -/
theorem Rules.within_computed {n : Nat} {stack : List F.Request} {r : F.Request} {s s₁ : State F}
    (hr : r ∉ stack) (hl : s.lookup r = .ok none) (hbegin : begin stack r s = .ok () s₁)
    (c : Call F) :
    rules.Within ⟨n + 1, stack, r, s⟩ c ↔ c = ⟨n + 1, stack, r, s⟩ ∨
      ∃ q s₂, (rules.body r).AsksAt (rules.evaluate n (r :: stack)) (r :: stack) s₁ q s₂ ∧
        rules.Within ⟨n, r :: stack, q, s₂⟩ c := by
  constructor
  · intro h
    rcases h.cases_head with rfl | ⟨c₁, hm, hc⟩
    · exact .inl rfl
    · cases hm with
      | @intro _ _ _ q _ s₁' s₂ _ _ hbegin' hasks =>
        rw [hbegin] at hbegin'
        cases hbegin'
        exact .inr ⟨q, s₂, hasks, hc⟩
  · rintro (rfl | ⟨q, s₂, hasks, hc⟩)
    · exact .refl
    · exact .head (.intro hr hl hbegin hasks) hc

/-- The only call within a call that computes nothing is itself. -/
theorem Rules.within_uncomputed {n : Nat} {stack : List F.Request} {r : F.Request} {s : State F}
    (h : r ∈ stack ∨ s.lookup r ≠ .ok none) (c : Call F) :
    rules.Within ⟨n, stack, r, s⟩ c ↔ c = ⟨n, stack, r, s⟩ := by
  constructor
  · intro hc
    rcases hc.cases_head with rfl | ⟨c₁, hm, -⟩
    · rfl
    · cases hm with
      | intro hr hl => exact absurd hl (h.resolve_left hr)
  · rintro rfl
    exact .refl

/-- An evaluation files the references of the sources that are asked for in it. -/
theorem Rules.filed_evaluate {n : Nat} {stack : List F.Request} {r : F.Request} {s s' : State F}
    {o : Outcome F r} (h : rules.evaluate n stack r s = .ok o s') (f : FileId) (ref : Reference) :
    ref ∈ s'.recorder.filed f ↔ ref ∈ s.recorder.filed f ∨
      ∃ c, rules.Within ⟨n, stack, r, s⟩ c ∧ rules.Files f ref c := by
  induction n generalizing stack r s s' with
  | zero => cases h
  | succ n ih =>
    have hself : rules.Files f ref ⟨n + 1, stack, r, s⟩ ↔
        r ∉ stack ∧ F.FiledUnder r f ∧ s'.Records r ref := by
      unfold Files answer
      simp [h]
    rcases evaluate_cases h with ⟨hr, hc, -⟩ | ⟨hr, out, hl, hs, -⟩ |
      ⟨hr, hl, s₁, out, s₂, hbegin, hin, hbody, hout, -⟩
    · simp only [within_uncomputed (.inl hr), exists_eq_left, hself, hr, not_true_eq_false,
        false_and, or_false]
      rw [hc.recorder]
    · have hrec : s'.Records r ref ↔ s.Records r ref := by
        rw [State.Records, State.recorded?, hs.recorded]
        rfl
      have hne : s.lookup r ≠ .ok none := by rw [hl]; simp
      simp only [within_uncomputed (.inr hne), exists_eq_left, hself, hr, not_false_eq_true,
        true_and, hrec]
      exact hs.filed f ref
    · have hrun := Task.collected_run (I := fun _ => True) (P := fun s => ref ∈ s.recorder.filed f)
        (fun s s' h _ => ⟨trivial, by rw [h.filed]⟩) (fun q s o s' _ h => ⟨trivial, ih h⟩)
        trivial hbody
      rw [hout.filed, hrun.2, hin.filed]
      simp only [within_computed hr hl hbegin, or_and_right, exists_or, exists_eq_left, hself, hr,
        not_false_eq_true, true_and]
      constructor
      · rintro ((h | ⟨q, s₁, c, ha, hc⟩) | h)
        · exact .inl h
        · exact .inr (.inr ⟨c, ⟨q, s₁, ha, hc.1⟩, hc.2⟩)
        · exact .inr (.inl h)
      · rintro (h | h | ⟨c, ⟨q, s₁, ha, hc⟩, hf⟩)
        · exact .inl (.inl h)
        · exact .inr h
        · exact .inl (.inr ⟨q, s₁, c, ha, hc, hf⟩)

end Filing

end Demand
