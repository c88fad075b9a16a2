import Demand.Proofs.Engine.Plain
import Demand.Proofs.Script.Text
import Demand.Script.Action

/-!
# What scripts can do

The body of a scripted request asks only for requests that its script mentions, leaves the store
outside the engine alone, and, if its script is plain, looks at nothing but the answers it gets. The
references that plain recursion collects for a request are those its script records, and those of
the requests it mentions (`Table.References`).
-/

namespace Demand.Script

/-! ## The store outside the engine -/

theorem lookup_filter_ne {β : Type} {i j : String} (h : i ≠ j) (l : List (String × β)) :
    (l.filter fun e => e.1 ≠ j).lookup i = l.lookup i := by
  induction l with
  | nil => rfl
  | cons e rest ih =>
    obtain ⟨k, s⟩ := e
    by_cases hk : k = j
    · have hi : (i == k) = false := beq_eq_false_iff_ne.mpr (fun e => h (e.trans hk))
      rw [List.filter_cons_of_neg (by simp [hk]), ih, List.lookup_cons, hi]
    · rw [List.filter_cons_of_pos (by simp [hk]), List.lookup_cons, List.lookup_cons, ih]

theorem World.fetch_store_of_ne (w : World) {text text' : String} (h : text' ≠ text) (v : Int64) :
    (w.store text v).fetch text' = w.fetch text' := by
  have hb : (text' == text) = false := by simpa using h
  show List.lookup text' ((text, v) :: w.stored.filter fun e => e.1 ≠ text) = w.stored.lookup text'
  rw [List.lookup_cons, hb]
  exact lookup_filter_ne h w.stored

theorem fetch_store (r : Request) (out : Int64) (w : World) :
    family.fetch r (family.store r out w) = some out ∨ ∀ w', family.fetch r w' = none := by
  show (if r.isHooked then (if r.isHooked then w.store r.text out else w).fetch r.text else none)
    = some out ∨ ∀ w' : World, (if r.isHooked then w'.fetch r.text else none) = none
  cases r.isHooked with
  | true => exact .inl (by simp [World.fetch, World.store])
  | false => exact .inr fun _ => rfl

theorem fetch_store_of_ne (r : Request) (out : Int64) (w : World) (q : Request) (hq : q ≠ r) :
    family.fetch q (family.store r out w) = family.fetch q w := by
  show (if q.isHooked then (if r.isHooked then w.store r.text out else w).fetch q.text else none)
    = if q.isHooked then w.fetch q.text else none
  cases hr : r.isHooked with
  | false => rfl
  | true =>
    cases hh : q.isHooked with
    | false => rfl
    | true =>
      have htext : q.text ≠ r.text := fun h => hq (Request.text_injective hh hr h)
      simp only [if_true]
      exact World.fetch_store_of_ne w htext out

/-! ## What a script asks for -/

/-- The action looks at nothing but the answers it gets. -/
def Action.IsPlain : Action → Prop
  | isActive _ | current | ifActive .. => False
  | _ => True

/-- The task asks only for these requests, leaves the store alone and, if `plain`, looks at nothing
but its answers. -/
structure Scripted {α : Type} (p : Request → Prop) (plain : Prop) (t : Task family α) : Prop where
  asks : t.Asks p
  keeps : t.Keeps
  visits : t.Visits fun change => ∀ w : World, World.stored (change w) = w.stored
  oblivious : plain → t.Oblivious

namespace Scripted

variable {α β : Type} {p : Request → Prop} {plain : Prop}

theorem done (a : α) : Scripted p plain (.done a) :=
  ⟨trivial, trivial, trivial, fun _ => trivial⟩

theorem bind {t : Task family α} {f : α → Task family β} (ht : Scripted p plain t)
    (hf : ∀ a, Scripted p plain (f a)) : Scripted p plain (t >>= f) :=
  ⟨ht.asks.bind fun a => (hf a).asks, ht.keeps.bind fun a => (hf a).keeps,
    ht.visits.bind fun a => (hf a).visits,
    fun hp => (ht.oblivious hp).bind fun a => (hf a).oblivious hp⟩

theorem ask {r : Request} {next : Outcome family r → Task family α} (hr : p r)
    (hnext : ∀ o, Scripted p plain (next o)) : Scripted p plain (.ask r next) :=
  ⟨⟨hr, fun o => (hnext o).asks⟩, fun o => (hnext o).keeps, fun o => (hnext o).visits,
    fun hp o => (hnext o).oblivious hp⟩

theorem event (text : String) : Scripted p plain (event text) :=
  ⟨fun _ => trivial, ⟨fun _ _ => rfl, fun _ => trivial⟩, ⟨fun _ => rfl, fun _ => trivial⟩,
    fun _ _ => ⟨trivial, fun _ => rfl⟩⟩

theorem isActive (hp : ¬ plain) {r : Request} {next : Bool → Task family α}
    (hnext : ∀ b, Scripted p plain (next b)) : Scripted p plain (.isActive r next) :=
  ⟨fun b => (hnext b).asks, fun b => (hnext b).keeps, fun b => (hnext b).visits,
    fun h => absurd h hp⟩

theorem addOutcome (total : Int64) {r : Request} (o : Outcome family r) :
    Scripted p plain (addOutcome total o) := by
  cases o with
  | ok v => exact done _
  | error c => exact (event _).bind fun _ => done _

theorem evaluateAll {rs : List Request} (h : ∀ r ∈ rs, p r) :
    Scripted p plain (Script.evaluateAll rs) := by
  induction rs with
  | nil => exact done _
  | cons r rs ih =>
    refine ask (h r List.mem_cons_self) fun o => ?_
    exact (ih fun q hq => h q (List.mem_cons_of_mem r hq)).bind fun _ => done _

theorem addAnswers (total : Int64) (as : List (Answer family)) :
    Scripted p plain (addAnswers total as) := by
  induction as generalizing total with
  | nil => exact done _
  | cons a rest ih => exact (addOutcome total a.outcome).bind fun t => ih t

mutual

theorem perform (total : Int64) : (a : Action) → (∀ q ∈ a.requests, p q) →
    (plain → a.IsPlain) → Scripted p plain (a.perform total)
  | .add n, _, _ => done _
  | .evaluate r d, h, _ => ask (h r (by simp [Action.requests])) fun _ => done _
  | .attempt r, h, _ =>
    ask (h r (by simp [Action.requests])) fun o => (addOutcome total o).bind fun _ => done _
  | .need r, h, _ => by
    refine ask (h r (by simp [Action.requests])) fun o => ?_
    cases o with
    | ok v => exact done _
    | error c => exact done _
  | .batch rs, h, _ =>
    (evaluateAll h).bind fun as => (addAnswers total as).bind fun _ => done _
  | .record ref, _, _ => ⟨trivial, trivial, trivial, fun _ => trivial⟩
  | .report d, _, _ => ⟨trivial, trivial, trivial, fun _ => trivial⟩
  | .isActive r, _, hp => isActive hp fun _ => (event _).bind fun _ => done _
  | .current, _, hp => by
    have hnext : ∀ r? : Option Request, Scripted p plain (do
        match r? with
        | some r => Script.event s!"current {family.activeTag r} {family.nameOf r}"
        | none => pure ()
        return (⟨total, false⟩ : Tally)) := by
      intro r?
      cases r? with
      | some r => exact (event _).bind fun _ => done _
      | none => exact done _
    exact ⟨fun r => (hnext r).asks, fun r => (hnext r).keeps, fun r => (hnext r).visits,
      fun h => (hp h).elim⟩
  | .ifActive r yes no, h, hp => by
    refine isActive hp fun b => ?_
    cases b with
    | true =>
      exact performAll total yes (fun q hq => h q (by simp [Action.requests, hq]))
        (fun h => (hp h).elim)
    | false =>
      exact performAll total no (fun q hq => h q (by simp [Action.requests, hq]))
        (fun h => (hp h).elim)

theorem performAll (total : Int64) : (as : List Action) → (∀ q ∈ Action.requestsOf as, p q) →
    (plain → ∀ a ∈ as, a.IsPlain) → Scripted p plain (Action.performAll total as)
  | [], _, _ => done _
  | a :: rest, h, hp => by
    refine (perform total a (fun q hq => h q (by simp [Action.requestsOf, hq]))
      fun h => hp h a List.mem_cons_self).bind fun t => ?_
    split
    · exact done _
    · exact performAll t.total rest (fun q hq => h q (by simp [Action.requestsOf, hq]))
        fun h a ha => hp h a (List.mem_cons_of_mem _ ha)

end

end Scripted

namespace Table

/-- The requests that the script of a request mentions. -/
def mentions (t : Table) (r : Request) : List Request :=
  match t.find? r with
  | none => []
  | some e => Action.requestsOf e.actions

/-- The script of the first request mentions the second. -/
def Asks (t : Table) (r q : Request) : Prop :=
  q ∈ t.mentions r

/-- No script looks at the active requests. -/
def IsPlain (t : Table) : Prop :=
  ∀ e ∈ t, ∀ a ∈ e.2.actions, a.IsPlain

variable {t : Table}

theorem mem_of_find? {r : Request} {e : Entry} (h : t.find? r = some e) :
    ((r.kind, r.key), e) ∈ t := by
  obtain ⟨l₁, l₂, hl, -⟩ := List.lookup_eq_some_iff.1 h
  rw [hl]
  simp

theorem Asks.mem_requests {r q : Request} (h : t.Asks r q) : q ∈ t.requests := by
  unfold Asks mentions at h
  cases hf : t.find? r with
  | none => rw [hf] at h; cases h
  | some e =>
    rw [hf] at h
    exact List.mem_flatMap.2 ⟨_, mem_of_find? hf, h⟩

theorem scripted_body (t : Table) (r : Request) :
    Scripted (t.Asks r) t.IsPlain (t.rules.body r) := by
  refine (Scripted.event _).bind fun _ => Scripted.bind ?_ fun total =>
    (Scripted.event _).bind fun _ => .done _
  unfold total Asks mentions
  cases hf : t.find? r with
  | none => exact .done _
  | some e =>
    refine (Scripted.performAll 0 e.actions (fun q hq => hq) fun hp a ha => ?_).bind
      fun _ => .done _
    exact hp _ (mem_of_find? hf) a ha

theorem lawful (t : Table) : t.rules.Lawful where
  body r := (t.scripted_body r).keeps
  sinkVisit r out w q := by
    show family.fetch q (if r.isHooked then _ else w) = _
    split <;> rfl
  fetch_store := fetch_store
  fetch_store_of_ne := fetch_store_of_ne

/-- The scripts of a plain table and plain recursion agree. -/
def memo (t : Table) (hp : t.IsPlain) {exact : Prop} : Discipline t.rules fun _ => True :=
  @Demand.memo family t.rules t.Asks exact t.lawful (fun r => (t.scripted_body r).asks)
    fun r _ => (t.scripted_body r).oblivious hp

end Table

/-! ## The references of a request -/

namespace Table

/-- The result of the request writes the reference to whoever asks for it. -/
def Sinks (t : Table) (r : Request) (ref : Reference) : Prop :=
  r.kind.policy.isSink = true ∧ ref ∈ t.sinkReferences r

/-- The references of a request: those its script records, and the references and sink references of
the requests that its script mentions. -/
inductive References (t : Table) : Request → Reference → Prop
  | recorded {r : Request} {e : Entry} {ref : Reference} : t.find? r = some e →
      .record ref ∈ e.actions → References t r ref
  | mentioned {r q : Request} {ref : Reference} : t.Asks r q → References t q ref →
      References t r ref
  | sink {r q : Request} {ref : Reference} : t.Asks r q → t.Sinks q ref → References t r ref

/-- What the request writes when it is asked for. -/
def Writes (t : Table) (r : Request) (ref : Reference) : Prop :=
  t.References r ref ∨ t.Sinks r ref

section Gathers

variable {α β : Type} (t : Table)
  (ev : (r : Request) → World → Option (Trace Int64 × World)) (self : Request)

/-- However the plain run of the task ends, its references are `refs` and its result is one of
`Q`. -/
def Gathers (task : Task family α) (refs : Reference → Prop) (Q : α → Prop) : Prop :=
  ∀ w tr w', t.rules.runPlain ev self task w = some (tr, w') →
    (∀ ref, ref ∈ tr.references ↔ refs ref) ∧ Q tr.result

variable {t ev self}

theorem Gathers.done {a : α} {Q : α → Prop} (h : Q a) :
    Gathers t ev self (.done a) (fun _ => False) Q := by
  rintro w tr w' htr
  cases htr
  exact ⟨by simp, h⟩

theorem Gathers.congr {task : Task family α} {refs refs' : Reference → Prop} {Q : α → Prop}
    (h : Gathers t ev self task refs Q) (hrefs : ∀ ref, refs ref ↔ refs' ref) :
    Gathers t ev self task refs' Q := by
  intro w tr w' htr
  obtain ⟨hr, hq⟩ := h w tr w' htr
  exact ⟨fun ref => (hr ref).trans (hrefs ref), hq⟩

theorem Gathers.bind {task : Task family α} {f : α → Task family β} {refs refs' : Reference → Prop}
    {Q : α → Prop} {Q' : β → Prop} (h : Gathers t ev self task refs Q)
    (hf : ∀ a, Q a → Gathers t ev self (f a) refs' Q') :
    Gathers t ev self (task >>= f) (fun ref => refs ref ∨ refs' ref) Q' := by
  intro w tr w' htr
  obtain ⟨t₁, w₁, t₂, h₁, h₂, hres, hrefs⟩ := Rules.runPlain_bind htr
  obtain ⟨hr, hq⟩ := h w t₁ w₁ h₁
  obtain ⟨hr', hq'⟩ := hf _ hq w₁ t₂ w' h₂
  refine ⟨fun ref => ?_, by rw [hres]; exact hq'⟩
  rw [hrefs, List.mem_append, hr, hr']

theorem Gathers.event (text : String) :
    Gathers t ev self (event text) (fun _ => False) fun _ => True := by
  rintro w tr w' htr
  cases htr
  exact ⟨by simp, trivial⟩

variable (hev : ∀ q w tr w', ev q w = some (tr, w') →
  ∀ ref, ref ∈ tr.references ↔ t.References q ref)

include hev

/-- An answer of plain recursion is a result. -/
theorem Gathers.evaluate (q : Request) :
    Gathers t ev self (Task.evaluate (F := family) q) (t.Writes q)
      fun o => ∃ v, o = .ok v := by
  intro w tr w' htr
  simp only [Task.evaluate, Rules.runPlain, Option.bind_eq_bind, Option.bind_eq_some_iff] at htr
  obtain ⟨⟨tq, wq⟩, hq, ⟨tr', w₁⟩, hdone, htr⟩ := htr
  cases hdone
  cases htr
  refine ⟨fun ref => ?_, _, rfl⟩
  rw [List.append_nil, List.mem_append, hev q w tq wq hq, Rules.mem_sinkOf]
  rfl

theorem Gathers.evaluate_bind {q : Request} {f : Outcome family q → Task family β} {Q : β → Prop}
    (hf : ∀ v, Gathers t ev self (f (.ok v)) (fun _ => False) Q) :
    Gathers t ev self (Task.evaluate (F := family) q >>= f) (t.Writes q) Q := by
  have hnext : ∀ o : Outcome family q, (∃ v, o = .ok v) →
      Gathers t ev self (f o) (fun _ => False) Q := by
    rintro o ⟨v, rfl⟩
    exact hf v
  exact ((Gathers.evaluate hev q).bind hnext).congr fun ref => or_iff_left id

theorem Gathers.evaluateAll (rs : List Request) :
    Gathers t ev self (Script.evaluateAll rs) (fun ref => ∃ q ∈ rs, t.Writes q ref)
      fun as => ∀ a ∈ as, ∃ v, a.outcome = .ok v := by
  induction rs with
  | nil => exact (Gathers.done (by simp)).congr (by simp)
  | cons r rs ih =>
    refine Gathers.congr ((Gathers.evaluate hev r).bind fun o ho => ih.bind fun as has =>
      Gathers.done ?_) (by simp)
    intro a ha
    rcases List.mem_cons.1 ha with rfl | ha
    · exact ho
    · exact has a ha

omit hev in
theorem Gathers.addAnswers (total : Int64) {as : List (Answer family)}
    (has : ∀ a ∈ as, ∃ v, a.outcome = .ok v) :
    Gathers t ev self (addAnswers total as) (fun _ => False) fun _ => True := by
  induction as generalizing total with
  | nil => exact Gathers.done trivial
  | cons a rest ih =>
    obtain ⟨v, hv⟩ := has a List.mem_cons_self
    unfold Script.addAnswers
    rw [hv]
    exact ih (total + v) fun b hb => has b (List.mem_cons_of_mem a hb)

/-- A plain action writes what it records and what the requests that it mentions write, and the
actions go on. -/
theorem Gathers.perform (total : Int64) {a : Action} (ha : a.IsPlain) :
    Gathers t ev self (a.perform total)
      (fun ref => a = .record ref ∨ ∃ q ∈ a.requests, t.Writes q ref)
      fun tally => tally.ended = false := by
  cases a with
  | add n =>
    rw [Action.perform]
    refine Gathers.congr (Gathers.done rfl) ?_
    simp [Action.requests]
  | evaluate r d =>
    rw [Action.perform]
    refine Gathers.congr (Gathers.evaluate_bind hev fun v => Gathers.done rfl) ?_
    simp [Action.requests]
  | attempt r =>
    rw [Action.perform]
    refine Gathers.congr (Gathers.evaluate_bind hev fun v => Gathers.done rfl) ?_
    simp [Action.requests]
  | need r =>
    rw [Action.perform]
    refine Gathers.congr (Gathers.evaluate_bind hev fun v => Gathers.done rfl) ?_
    simp [Action.requests]
  | batch rs =>
    rw [Action.perform]
    refine Gathers.congr ((Gathers.evaluateAll hev rs).bind fun as has =>
      (Gathers.addAnswers total has).bind fun _ _ => Gathers.done rfl) ?_
    simp [Action.requests]
  | record ref =>
    rw [Action.perform]
    rintro w tr w' htr
    cases htr
    exact ⟨by simp [Action.requests, eq_comm], rfl⟩
  | report d =>
    rw [Action.perform]
    rintro w tr w' htr
    cases htr
    exact ⟨by simp [Action.requests], rfl⟩
  | isActive r => exact ha.elim
  | current => exact ha.elim
  | ifActive r yes no => exact ha.elim

theorem Gathers.performAll (total : Int64) {as : List Action} (has : ∀ a ∈ as, a.IsPlain) :
    Gathers t ev self (Action.performAll total as)
      (fun ref => .record ref ∈ as ∨ ∃ q ∈ Action.requestsOf as, t.Writes q ref)
      fun _ => True := by
  induction as generalizing total with
  | nil =>
    rw [Action.performAll]
    exact (Gathers.done trivial).congr (by simp [Action.requestsOf])
  | cons a rest ih =>
    rw [Action.performAll]
    have hrest : ∀ tally : Tally, tally.ended = false → Gathers t ev self
        (if tally.ended then pure tally else Action.performAll tally.total rest)
        (fun ref => .record ref ∈ rest ∨ ∃ q ∈ Action.requestsOf rest, t.Writes q ref)
        fun _ => True := by
      intro tally htally
      rw [htally]
      exact ih tally.total fun b hb => has b (List.mem_cons_of_mem a hb)
    refine ((Gathers.perform hev total (has a List.mem_cons_self)).bind hrest).congr fun ref => ?_
    simp only [Action.requestsOf, List.mem_append, List.mem_cons, or_and_right, exists_or,
      @eq_comm _ a]
    exact or_or_or_comm

end Gathers

/-- Plain recursion collects the references of a request. -/
theorem references_of_plain {t : Table} (hp : t.IsPlain) {n : Nat} {r : Request} {w w' : World}
    {tr : Trace Int64} (h : t.rules.plain n r w = some (tr, w')) (ref : Reference) :
    ref ∈ tr.references ↔ t.References r ref := by
  induction n generalizing r w tr w' ref with
  | zero => cases h
  | succ n ih =>
    have hev : ∀ q w tr w', t.rules.plain n q w = some (tr, w') →
        ∀ ref, ref ∈ tr.references ↔ t.References q ref := fun q w tr w' h ref => ih h ref
    have htotal : Gathers t (t.rules.plain n) r (t.total r) (t.References r) fun _ => True := by
      unfold total
      cases hf : t.find? r with
      | none =>
        refine (Gathers.done trivial).congr fun ref => ⟨False.elim, fun h => ?_⟩
        cases h with
        | recorded he _ => rw [hf] at he; cases he
        | mentioned ha _ => simp [Asks, mentions, hf] at ha
        | sink ha _ => simp [Asks, mentions, hf] at ha
      | some e =>
        refine Gathers.congr ((Gathers.performAll hev 0 fun a ha =>
          hp _ (mem_of_find? hf) a ha).bind fun _ _ => Gathers.done trivial) fun ref => ?_
        rw [or_false]
        constructor
        · rintro (h | ⟨q, hq, h | h⟩)
          · exact .recorded hf h
          · exact .mentioned (by simpa [Asks, mentions, hf] using hq) h
          · exact .sink (by simpa [Asks, mentions, hf] using hq) h
        · intro h
          cases h with
          | recorded he h =>
            rw [hf] at he
            cases he
            exact .inl h
          | @mentioned _ q _ ha h => exact .inr ⟨q, by simpa [Asks, mentions, hf] using ha, .inl h⟩
          | @sink _ q _ ha h => exact .inr ⟨q, by simpa [Asks, mentions, hf] using ha, .inr h⟩
    have hbody : Gathers t (t.rules.plain n) r (t.rules.body r) (t.References r) fun _ => True :=
      Gathers.congr ((Gathers.event _).bind fun _ _ => htotal.bind fun _ _ =>
        (Gathers.event _).bind fun _ _ => Gathers.done trivial) (by simp)
    exact (hbody w tr w' h).1 ref

theorem references_of_traces {t : Table} (hp : t.IsPlain) {r : Request} {tr : Trace Int64}
    (h : t.rules.Traces r tr) (ref : Reference) : ref ∈ tr.references ↔ t.References r ref := by
  obtain ⟨n, hn⟩ := h
  obtain ⟨w', hw⟩ := hn n (Nat.le_refl n) {}
  exact references_of_plain hp hw ref

end Table

end Demand.Script
