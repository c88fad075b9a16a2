import Demand.Proofs.Compiler.Filed
import Demand.Proofs.Compiler.Observations

/-!
# Steps on several files

A session that works on several files in turn, and one that takes only the steps on one of the files
and those that drop all results, keep what is alike for the file (`Session.Parted`): a step on the
file is taken by both (`Parted.step_on`), and a step on another file is taken by the first and
leaves the file aside (`Parted.step_off`). So what the steps on the file give and report is the same,
up to the number of the file and the identities of its definitions (`Session.observed_alone`), and
so are the references that are filed (`Session.mem_filed_alone`).
-/

namespace Demand.Compiler

open Demand.Language

namespace Session

section Steps

variable {files files' : List SourceFile} {s t : Session} {f g : SourceFile} {p : Pairing}
  {rank : Nat → Nat}

/-! ## One session -/

/-- Requests from outside that are alike are answered alike. -/
theorem follow_outside {r r' : Request} {o : Outcome family r} {o' : Outcome family r'}
    {s s' t t' : State family} (hr : r.Like p r') (hst : Similar p s t)
    (hs : Compiler.evaluate files r s = .ok o s') (ht : Compiler.evaluate files' r' t = .ok o' t') :
    ∃ p', Follow p p' s t s' t' ∧ LikeOutcome p' r r' o o' :=
  follow_evaluate .nil hr hst hs ht

theorem not_external (r : Request) : (family.policyOf r).isExternal = false := by
  cases r <;> rfl

theorem Sound.clears (h : Sound files s) {r : Request} {had : Bool} {s' : State family}
    (hr : Eval.clearResult (F := family) r s.state = .ok had s') :
    Command.Clears r had s.state s' :=
  (Command.ends_clearResult h.sits.owned (h.sits.known (family.kind r))).of_ok hr (not_external r)

/-- A step that works ends, and this is what it does. -/
theorem Sound.exists_acted (h : Sound files s) {st : Step} (hst : st.Works) :
    ∃ x held s', s.step st =
        (⟨.ok x, s'.diagnostics.length⟩, { s with held := held, state := s' }) ∧
      Acted s st x held s' := by
  obtain ⟨⟨x, held⟩, s', hact⟩ := h.exists_act st hst.mayStop
  exact ⟨x, held, s', step_of_ok hact, acted_of_act hst hact⟩

/-- Definitions are held for good, under one number. -/
theorem Acted.held_grows {st : Step} {x : Response} {held : List Definition} {s' : State family}
    (h : Acted s st x held s') : s.held <+: held := by
  cases h with
  | hold | holdLookup => exact List.prefix_append _ _
  | _ => exact List.prefix_rfl

theorem Sound.held_grows (h : Sound files s) {steps : List Step}
    (hsteps : ∀ st ∈ steps, st.Works) : s.held <+: (s.after steps).held := by
  induction steps generalizing s with
  | nil => exact List.prefix_rfl
  | cons st steps ih =>
    have hst := hsteps st List.mem_cons_self
    obtain ⟨x, held, s', hstep, ha⟩ := h.exists_acted hst
    have hrest := ih (h.step hst.not_isPut) fun st' hst' => hsteps st' (List.mem_cons_of_mem st hst')
    refine List.IsPrefix.trans ?_ hrest
    rw [hstep]
    exact ha.held_grows

theorem rank_of_grows {s' : Session} (h : s.held <+: s'.held) (f : SourceFile) {n : Nat}
    (hn : n ≤ s.held.length) : s'.rank f n = s.rank f n := by
  obtain ⟨ds, hds⟩ := h
  rw [Session.rank, Session.rank, ← hds, List.take_append_of_le_length hn]

theorem Sound.aside_evaluate (h : Sound files s) {r : Request} (hr : r.file ∈ files)
    (hf : r.file ≠ f) {s₁ s' : State family} (hs : Sits [] s₁) {o : Outcome family r}
    (ho : Compiler.evaluate s.files r s₁ = .ok o s') :
    Aside f s₁ s' ∧ Sits [] s' ∧ ∃ out, o = .ok out ∧ Meets r out := by
  obtain ⟨hs', hout⟩ := (h.ends_evaluate hr hs).of_ok ho
  rw [h.files_eq] at ho
  exact ⟨Compiler.aside_evaluate hr hs hf ho, hs', hout⟩

/-- A step on another file leaves the file aside, and holds on to no definition of it. -/
theorem Acted.aside (h : Sound files s) {st : Step} {x : Response} {held : List Definition}
    {s' : State family} (ha : Acted s st x held s') (hne : st ≠ .clearCache)
    (hf : s.subject? st ≠ some f) :
    Aside f s.state s' ∧
      held.filter (fun d => d.file = f) = s.held.filter fun d => d.file = f := by
  have happend : ∀ ds : List Definition, (∀ d ∈ ds, d.file ≠ f) →
      (s.held ++ ds).filter (fun d => d.file = f) = s.held.filter fun d => d.file = f := by
    intro ds hds
    have hnone : ds.filter (fun d => d.file = f) = [] :=
      List.filter_eq_nil_iff.2 fun d hd => by simpa using hds d hd
    rw [List.filter_append, hnone, List.append_nil]
  cases ha with
  | evaluate hq ho =>
    rw [Session.subject?, hq] at hf
    exact ⟨(h.aside_evaluate (h.mem_of_request? hq) (by simpa using hf) h.sits ho).1, rfl⟩
  | evaluateD hg ho =>
    rw [Session.subject?, hg] at hf
    exact ⟨(h.aside_evaluate (h.mem_of_given? hg) (by simpa using hf) h.sits ho).1, rfl⟩
  | @both i f₀ o o' s₁ _ hi ho ho' =>
    rw [Session.subject?, hi] at hf
    have hf₀ : f₀ ≠ f := by simpa using hf
    have hmem := h.mem_of_file? hi
    obtain ⟨haside, hs₁, -⟩ := h.aside_evaluate (r := .check f₀) hmem hf₀ h.sits ho
    obtain ⟨haside', -⟩ := h.aside_evaluate (r := .emit f₀) hmem hf₀ hs₁ ho'
    exact ⟨haside.trans haside', rfl⟩
  | @hold i f₀ o ds _ hi ho hds =>
    rw [Session.subject?, hi] at hf
    have hf₀ : f₀ ≠ f := by simpa using hf
    obtain ⟨haside, -, ds?, rfl, hmeets⟩ :=
      h.aside_evaluate (r := .parseModule f₀) (h.mem_of_file? hi) hf₀ h.sits ho
    refine ⟨haside, happend ds fun d hd => ?_⟩
    rw [hds] at hd
    cases ds? with
    | none => cases hd
    | some ds =>
      rw [hmeets.2 ds rfl d hd]
      exact hf₀
  | @holdLookup i f₀ name o d? _ hi ho hd? =>
    rw [Session.subject?, hi] at hf
    have hf₀ : f₀ ≠ f := by simpa using hf
    obtain ⟨haside, -, d?', rfl, hmeets⟩ :=
      h.aside_evaluate (r := .lookup f₀ name) (h.mem_of_file? hi) hf₀ h.sits ho
    refine ⟨haside, happend _ fun d hd => ?_⟩
    rw [hmeets.2 d (by rw [hd?] at hd; exact Option.mem_toList.1 hd)]
    exact hf₀
  | @clear q r had _ hq hclear =>
    rw [Session.subject?, hq] at hf
    have hclears := h.clears hclear
    refine ⟨⟨fun q' hq' => hclears.result_of_ne q' ?_, by rw [hclears.world]⟩, rfl⟩
    rintro rfl
    exact hf (congrArg some hq')
  | clearCache => exact absurd rfl hne
  | unknown => exact ⟨.refl _, rfl⟩

/-! ## Two sessions -/

/-- A session over several files, and one over files of which only a copy of `f` is worked on. -/
structure Parted (files files' : List SourceFile) (f g : SourceFile) (p : Pairing) (s t : Session) :
    Prop where
  left : p.left = f
  right : p.right = g
  sound : Sound files s
  sound' : Sound files' t
  held : List.Forall₂ (Definition.Like p) (s.held.filter fun d => d.file = f) t.held
  similar : Similar p s.state t.state

namespace Parted

theorem held? (h : Parted files files' f g p s t) {n : Nat} {d : Definition}
    (hd : s.held? n = some d) (hf : d.file = f) :
    ∃ d', t.held? (s.rank f n) = some d' ∧ d.Like p d' := by
  have hat := getElem?_filter (P := fun d : Definition => decide (d.file = f)) hd (by simpa using hf)
  obtain ⟨hlt, hget⟩ := List.getElem?_eq_some_iff.1 hat
  obtain ⟨hlength, hlike⟩ := List.forall₂_iff_get.1 h.held
  have hlt' : s.rank f n < t.held.length := by rw [← hlength]; exact hlt
  refine ⟨t.held.get ⟨s.rank f n, hlt'⟩, List.getElem?_eq_getElem hlt', ?_⟩
  have := hlike (s.rank f n) hlt hlt'
  rw [List.get_eq_getElem] at this
  rw [← hget]
  exact this

theorem file? (h : Parted files files' f g p s t) {j : Nat} (hj : files'[j]? = some g) :
    t.file? j = some p.right := by
  rw [Session.file?, h.sound'.files_eq, hj, h.right]

/-- The request that a query names is like that of the query with the other numbers. -/
theorem request? (h : Parted files files' f g p s t) {j : Nat} (hj : files'[j]? = some g)
    {q : Query} {r : Request} (hq : s.request? q = some r) (hf : r.file = f) :
    ∃ r', t.request? (q.renumbered j (s.rank f)) = some r' ∧ r.Like p r' := by
  obtain rfl := h.left
  have hfile := h.file? hj
  cases q with
  | parseModule i =>
    obtain ⟨_, -, rfl⟩ := Option.map_eq_some_iff.1 hq
    obtain rfl := hf
    exact ⟨.parseModule p.right, Option.map_eq_some_iff.2 ⟨_, hfile, rfl⟩, .parseModule⟩
  | lookup i name =>
    obtain ⟨_, -, rfl⟩ := Option.map_eq_some_iff.1 hq
    obtain rfl := hf
    exact ⟨.lookup p.right name, Option.map_eq_some_iff.2 ⟨_, hfile, rfl⟩, .lookup name⟩
  | value n =>
    obtain ⟨d, hd, rfl⟩ := Option.map_eq_some_iff.1 hq
    obtain ⟨d', hd', hlike⟩ := h.held? hd hf
    exact ⟨.value d', Option.map_eq_some_iff.2 ⟨d', hd', rfl⟩, .value hlike⟩
  | check i =>
    obtain ⟨_, -, rfl⟩ := Option.map_eq_some_iff.1 hq
    obtain rfl := hf
    exact ⟨.check p.right, Option.map_eq_some_iff.2 ⟨_, hfile, rfl⟩, .check⟩
  | emit i =>
    obtain ⟨_, -, rfl⟩ := Option.map_eq_some_iff.1 hq
    obtain rfl := hf
    exact ⟨.emit p.right, Option.map_eq_some_iff.2 ⟨_, hfile, rfl⟩, .emit⟩

/-- The same of a request with a default. -/
theorem given? (h : Parted files files' f g p s t) {j : Nat} (hj : files'[j]? = some g)
    {given : Given} {r : Request} {d : r.Output} (hg : s.given? given = some ⟨r, d⟩)
    (hf : r.file = f) :
    ∃ r' d', t.given? (given.renumbered j (s.rank f)) = some ⟨r', d'⟩ ∧ r.Like p r' := by
  obtain rfl := h.left
  have hfile := h.file? hj
  cases given with
  | parseModule i held =>
    obtain ⟨_, _, -, -, ⟨⟩⟩ := given?_parseModule hg
    obtain rfl := hf
    refine ⟨.parseModule p.right, none, ?_, .parseModule⟩
    rw [Given.renumbered, Session.given?, hfile]
    rfl
  | lookup i name held =>
    obtain ⟨_, _, -, -, ⟨⟩⟩ := given?_lookup hg
    obtain rfl := hf
    refine ⟨.lookup p.right name, none, ?_, .lookup name⟩
    rw [Given.renumbered, Session.given?, hfile]
    rfl
  | value n v =>
    obtain ⟨d, hd, ⟨⟩⟩ := Option.map_eq_some_iff.1 hg
    obtain ⟨d', hd', hlike⟩ := h.held? hd hf
    exact ⟨.value d', v, Option.map_eq_some_iff.2 ⟨d', hd', rfl⟩, .value hlike⟩
  | check i ok =>
    obtain ⟨_, -, ⟨⟩⟩ := Option.map_eq_some_iff.1 hg
    obtain rfl := hf
    exact ⟨.check p.right, ok, Option.map_eq_some_iff.2 ⟨_, hfile, rfl⟩, .check⟩
  | emit i code =>
    obtain ⟨_, -, ⟨⟩⟩ := Option.map_eq_some_iff.1 hg
    obtain rfl := hf
    exact ⟨.emit p.right, code, Option.map_eq_some_iff.2 ⟨_, hfile, rfl⟩, .emit⟩

/-- The step with the other numbers works on the copy. -/
theorem subject? (h : Parted files files' f g p s t) {j : Nat} (hj : files'[j]? = some g)
    {st : Step} (hst : s.subject? st = some f) :
    t.subject? (st.renumbered j (s.rank f)) = some g := by
  cases st with
  | evaluate q =>
    obtain ⟨r, hr, hf⟩ := Option.map_eq_some_iff.1 hst
    obtain ⟨r', hr', hlike⟩ := h.request? hj hr hf
    exact Option.map_eq_some_iff.2 ⟨r', hr', by rw [hlike.file_right, h.right]⟩
  | clear q =>
    obtain ⟨r, hr, hf⟩ := Option.map_eq_some_iff.1 hst
    obtain ⟨r', hr', hlike⟩ := h.request? hj hr hf
    exact Option.map_eq_some_iff.2 ⟨r', hr', by rw [hlike.file_right, h.right]⟩
  | evaluateD given =>
    obtain ⟨⟨r, d⟩, hg, hf⟩ := Option.map_eq_some_iff.1 hst
    obtain ⟨r', d', hg', hlike⟩ := h.given? hj hg hf
    exact Option.map_eq_some_iff.2 ⟨⟨r', d'⟩, hg', by rw [hlike.file_right, h.right]⟩
  | both | hold | holdLookup => exact (h.file? hj).trans (congrArg some h.right)
  | _ => cases hst

/-- A step of the first session and one of the second did the same: what they gave is alike, with
the ranks of numbers in the second, and so is what they left. -/
def Agree (p : Pairing) (rank : Nat → Nat) (s t : Session) (x : Response) (held : List Definition)
    (s' : State family) (x' : Response) (held' : List Definition) (t' : State family) : Prop :=
  ∃ p', Follow p p' s.state t.state s' t' ∧ Response.Like p' rank x x' ∧
    List.Forall₂ (Definition.Like p') (held.filter fun d => d.file = p.left) held'

section Agree

variable {s' t' : State family} {x' : Response} {held' : List Definition}

theorem agree_evaluate (h : Parted files files' p.left g p s t) {r r' : Request} (hr : r.Like p r')
    {o : Outcome family r} (ho : Compiler.evaluate s.files r s.state = .ok o s') {q : Query}
    (hq : t.request? q = some r') (hb : Acted t (.evaluate q) x' held' t') :
    Agree p rank s t (.reply (.answers [⟨r, o⟩])) s.held s' x' held' t' := by
  cases hb with
  | unknown _ hnone => simp [Session.subject?, hq] at hnone
  | evaluate hq' ho' =>
    rw [hq] at hq'
    cases hq'
    obtain ⟨p', hfollow, hout⟩ := follow_outside hr h.similar ho ho'
    exact ⟨p', hfollow, .answers (.cons ⟨hr.mono hfollow.grows, hout⟩ .nil),
      forall₂_like_mono h.held hfollow.grows⟩

theorem agree_evaluateD (h : Parted files files' p.left g p s t) {r r' : Request}
    (hr : r.Like p r') {d : r.Output} {d' : r'.Output} (hmem : r.file ∈ files)
    {o : Outcome family r} (ho : Compiler.evaluate s.files r s.state = .ok o s') {given : Given}
    (hg : t.given? given = some ⟨r', d'⟩) (hb : Acted t (.evaluateD given) x' held' t') :
    Agree p rank s t (.output r (o.getD d)) s.held s' x' held' t' := by
  cases hb with
  | unknown _ hnone => simp [Session.subject?, hg] at hnone
  | @evaluateD _ _ _ o' _ hg' ho' =>
    rw [hg] at hg'
    cases hg'
    obtain ⟨p', hfollow, hlike⟩ := follow_outside hr h.similar ho ho'
    -- the request is answered with a result, so that neither default is looked at
    obtain ⟨-, out, rfl, -⟩ := (h.sound.ends_evaluate hmem h.sound.sits).of_ok ho
    have hout : LikeOutput p' r r' out (o'.getD d') := by
      cases o' with
      | ok out' => exact hlike
      | error c => exact hlike.elim
    exact ⟨p', hfollow, .output (hr.mono hfollow.grows) hout,
      forall₂_like_mono h.held hfollow.grows⟩

theorem agree_both (h : Parted files files' p.left g p s t) {s₁ : State family}
    {o : Outcome family (.check p.left)} {o₁ : Outcome family (.emit p.left)}
    (ho : Compiler.evaluate s.files (.check p.left) s.state = .ok o s₁)
    (ho₁ : Compiler.evaluate s.files (.emit p.left) s₁ = .ok o₁ s') {j : Nat}
    (hj : t.file? j = some p.right) (hb : Acted t (.both j) x' held' t') :
    Agree p rank s t (.reply (.answers [⟨.check p.left, o⟩, ⟨.emit p.left, o₁⟩])) s.held s'
      x' held' t' := by
  cases hb with
  | unknown _ hnone => simp [Session.subject?, hj] at hnone
  | both hj' ho' ho₁' =>
    rw [hj] at hj'
    cases hj'
    obtain ⟨p₁, hfollow, hout⟩ := follow_outside .check h.similar ho ho'
    obtain ⟨p', hfollow', hout'⟩ :=
      follow_outside (Request.Like.mono .emit hfollow.grows) hfollow.similar ho₁ ho₁'
    have hgrows := hfollow.grows.trans hfollow'.grows
    refine ⟨p', hfollow.trans hfollow', .answers ?_, forall₂_like_mono h.held hgrows⟩
    exact .cons ⟨Request.Like.mono .check hgrows, hout.mono hfollow'.grows⟩
      (.cons ⟨Request.Like.mono .emit hgrows, hout'⟩ .nil)

theorem agree_hold (h : Parted files files' p.left g p s t) {ds : List Definition}
    {o : Outcome family (.parseModule p.left)}
    (ho : Compiler.evaluate s.files (.parseModule p.left) s.state = .ok o s')
    (hds : ds = Option.getD (o.getD none) []) {j : Nat} (hj : t.file? j = some p.right)
    (hb : Acted t (.hold j) x' held' t')
    (hrank : ∀ n ≤ (s.held ++ ds).length,
      rank n = ((s.held ++ ds).take n).countP fun d => d.file = p.left) :
    Agree p rank s t (.held s.held.length (s.held ++ ds).length) (s.held ++ ds) s'
      x' held' t' := by
  cases hb with
  | unknown _ hnone => simp [Session.subject?, hj] at hnone
  | @hold _ _ o' ds' _ hj' ho' hds' =>
    rw [hj] at hj'
    cases hj'
    obtain ⟨p', hfollow, hout⟩ := follow_outside .parseModule h.similar ho ho'
    have hrel : Option.Rel (List.Forall₂ (Definition.Like p')) (o.getD none) (o'.getD none) :=
      hout.getD .none
    have hlike : List.Forall₂ (Definition.Like p') ds ds' := by
      rw [hds, hds']
      generalize o.getD none = x at hrel ⊢
      generalize o'.getD none = y at hrel ⊢
      cases hrel with
      | none => exact .nil
      | some h => exact h
    have hbefore := forall₂_like_mono h.held hfollow.grows
    unfold Agree
    rw [← hfollow.grows.left] at hrank hbefore ⊢
    have hafter := forall₂_like_append hbefore hlike
    refine ⟨p', hfollow, .held ?_ ?_, hafter⟩
    · rw [hrank _ (by simp), List.take_left, length_of_forall₂_like hbefore]
    · rw [hrank _ (Nat.le_refl _), List.take_length, length_of_forall₂_like hafter]

theorem agree_holdLookup (h : Parted files files' p.left g p s t) {name : String}
    {d? : Option Definition} {o : Outcome family (.lookup p.left name)}
    (ho : Compiler.evaluate s.files (.lookup p.left name) s.state = .ok o s')
    (hd : d? = o.getD none) {j : Nat} (hj : t.file? j = some p.right)
    (hb : Acted t (.holdLookup j name) x' held' t')
    (hrank : ∀ n ≤ (s.held ++ d?.toList).length,
      rank n = ((s.held ++ d?.toList).take n).countP fun d => d.file = p.left) :
    Agree p rank s t (.lookedUp (d?.map fun d => (s.held.length, s.heldAs d)))
      (s.held ++ d?.toList) s' x' held' t' := by
  cases hb with
  | unknown _ hnone => simp [Session.subject?, hj] at hnone
  | @holdLookup _ _ _ o' d?' _ hj' ho' hd' =>
    rw [hj] at hj'
    cases hj'
    obtain ⟨p', hfollow, hout⟩ := follow_outside (.lookup name) h.similar ho ho'
    have hrel : Option.Rel (Definition.Like p') (o.getD none) (o'.getD none) := hout.getD .none
    rw [← hd, ← hd'] at hrel
    have hbefore := forall₂_like_mono h.held hfollow.grows
    unfold Agree
    rw [← hfollow.grows.left] at hrank hbefore ⊢
    have hranks : ∀ n ≤ s.held.length,
        rank n = (s.held.take n).countP fun d => d.file = p'.left := by
      intro n hn
      rw [hrank n (by rw [List.length_append]; omega), List.take_append_of_le_length hn]
    cases hrel with
    | none => exact ⟨p', hfollow, .lookedUp rfl, forall₂_like_append hbefore .nil⟩
    | some hlike =>
      refine ⟨p', hfollow, .lookedUp (congrArg some (Prod.ext ?_ ?_)),
        forall₂_like_append hbefore (.cons hlike .nil)⟩
      · show t.held.length = rank s.held.length
        rw [hranks _ (Nat.le_refl _), List.take_length, length_of_forall₂_like hbefore]
      · refine heldAs_like hbefore hlike fun n hn => ?_
        rw [Nat.zero_add, Nat.zero_add]
        exact hranks n hn

theorem agree_clear (h : Parted files files' p.left g p s t) {r r' : Request} (hr : r.Like p r')
    {had : Bool} (hclear : Eval.clearResult (F := family) r s.state = .ok had s') {q : Query}
    (hq : t.request? q = some r') (hb : Acted t (.clear q) x' held' t') :
    Agree p rank s t (.reply (.flag had)) s.held s' x' held' t' := by
  cases hb with
  | unknown _ hnone => simp [Session.subject?, hq] at hnone
  | clear hq' hclear' =>
    rw [hq] at hq'
    cases hq'
    have hclears := h.sound.clears hclear
    have hclears' := h.sound'.clears hclear'
    obtain ⟨hsimilar, rfl⟩ := h.similar.clears hr hclears hclears'
    exact ⟨p, .quiet (.refl p) hsimilar hclears.diagnostics hclears'.diagnostics, .flag had, h.held⟩

theorem agree_clearCache (h : Parted files files' p.left g p s t)
    (hclear : Eval.clearCache s.state = .ok () s') (hb : Acted t .clearCache x' held' t') :
    Agree p rank s t (.reply .done) s.held s' x' held' t' := by
  cases hb with
  | unknown hne _ => exact absurd rfl hne
  | clearCache hclear' =>
    cases hclear
    cases hclear'
    refine ⟨p, .quiet (.refl p) ?_ rfl rfl, .done, h.held⟩
    exact .of_none (fun q _ => Tables.value?_clear s.state.cache q)
      (fun q _ => Tables.value?_clear t.state.cache q) h.similar.below h.similar.counted

/-- What a step on the file does is what the step with the other numbers does. -/
theorem agree (h : Parted files files' p.left g p s t) {j : Nat} (hj : files'[j]? = some g)
    {st : Step} (hc : s.concerns p.left st) {x : Response} {held : List Definition}
    (ha : Acted s st x held s') (hb : Acted t (st.renumbered j (s.rank p.left)) x' held' t')
    (hrank : ∀ n ≤ held.length, rank n = (held.take n).countP fun d => d.file = p.left) :
    Agree p rank s t x held s' x' held' t' := by
  have hsubject : st ≠ .clearCache → s.subject? st = some p.left := by
    intro hne
    simpa [Session.concerns, hne] using hc
  have hfile := h.file? hj
  cases ha with
  | @evaluate q r o _ hq ho =>
    have hr : r.file = p.left := by simpa [Session.subject?, hq] using hsubject (by simp)
    obtain ⟨r', hq', hlike⟩ := h.request? hj hq hr
    exact h.agree_evaluate hlike ho hq' hb
  | @evaluateD given r d o _ hg ho =>
    have hr : r.file = p.left := by simpa [Session.subject?, hg] using hsubject (by simp)
    obtain ⟨r', d', hg', hlike⟩ := h.given? hj hg hr
    exact h.agree_evaluateD hlike (h.sound.mem_of_given? hg) ho hg' hb
  | @both i f o o₁ s₁ _ hf ho ho₁ =>
    obtain rfl : f = p.left := by simpa [Session.subject?, hf] using hsubject (by simp)
    exact h.agree_both ho ho₁ hfile hb
  | @hold i f o ds _ hf ho hds =>
    obtain rfl : f = p.left := by simpa [Session.subject?, hf] using hsubject (by simp)
    exact h.agree_hold ho hds hfile hb hrank
  | @holdLookup i f name o d? _ hf ho hd =>
    obtain rfl : f = p.left := by simpa [Session.subject?, hf] using hsubject (by simp)
    exact h.agree_holdLookup ho hd hfile hb hrank
  | @clear q r had _ hq hclear =>
    have hr : r.file = p.left := by simpa [Session.subject?, hq] using hsubject (by simp)
    obtain ⟨r', hq', hlike⟩ := h.request? hj hq hr
    exact h.agree_clear hlike hclear hq' hb
  | clearCache hclear => exact h.agree_clearCache hclear hb
  | unknown hne hnone =>
    rw [hsubject hne] at hnone
    cases hnone

end Agree

/-- A step that concerns the file, in both sessions. -/
theorem step_on (h : Parted files files' f g p s t) {j : Nat} (hj : files'[j]? = some g)
    {st : Step} (hst : st.Works) (hc : s.concerns f st)
    (hrank : ∀ n ≤ (s.step st).2.held.length, rank n = (s.step st).2.rank f n) :
    ∃ p', p.Grows p' ∧
      Parted files files' f g p' (s.step st).2 (t.step (st.renumbered j (s.rank f))).2 ∧
      Observation.Like p' rank (s.observe st) (t.observe (st.renumbered j (s.rank f))) := by
  obtain rfl := h.left
  have hst' := hst.renumbered j (s.rank p.left)
  obtain ⟨x, held, s', hstep, ha⟩ := h.sound.exists_acted hst
  obtain ⟨x', held', t', hstep', hb⟩ := h.sound'.exists_acted hst'
  have hsound := h.sound.step hst.not_isPut
  have hsound' := h.sound'.step hst'.not_isPut
  rw [hstep] at hrank hsound
  rw [hstep'] at hsound'
  obtain ⟨p', hfollow, hlike, hheld⟩ := h.agree hj hc ha hb hrank
  refine ⟨p', hfollow.grows, ?_, ?_⟩
  · rw [hstep, hstep']
    exact ⟨hfollow.grows.left, hfollow.grows.right.trans h.right, hsound, hsound',
      hheld, hfollow.similar⟩
  · unfold Session.observe
    rw [hstep, hstep']
    obtain ⟨ds, hds, hds'⟩ := hfollow.reported
    refine ⟨⟨x, x', rfl, rfl, hlike⟩, ?_⟩
    show s'.diagnostics.drop _ = (t'.diagnostics.drop _).map _
    rw [hds, hds', List.drop_left, List.drop_left, hfollow.grows.left]

/-- A step on another file, in the first session only. -/
theorem step_off (h : Parted files files' f g p s t) {st : Step} (hst : st.Works)
    (hc : s.concerns f st = false) : Parted files files' f g p (s.step st).2 t := by
  obtain ⟨x, held, s', hstep, ha⟩ := h.sound.exists_acted hst
  have hsound := h.sound.step hst.not_isPut
  have hoff : st ≠ .clearCache ∧ s.subject? st ≠ some f := by simpa [concerns] using hc
  rw [hstep] at hsound ⊢
  obtain ⟨haside, hheld⟩ := ha.aside h.sound hoff.1 hoff.2
  rw [← h.left] at haside
  exact ⟨h.left, h.right, hsound, h.sound', by rw [hheld]; exact h.held, h.similar.aside haside⟩

theorem concerns (h : Parted files files' f g p s t) {j : Nat} (hj : files'[j]? = some g)
    {st : Step} (hc : s.concerns f st) : t.concerns g (st.renumbered j (s.rank f)) := by
  by_cases hst : st = .clearCache
  · rw [hst]
    rfl
  · have hsubject : s.subject? st = some f := by simpa [Session.concerns, hst] using hc
    simp [Session.concerns, h.subject? hj hsubject]

/-- What the steps on the file give is like what they give alone. -/
theorem run (h : Parted files files' f g p s t) {j : Nat} (hj : files'[j]? = some g)
    {steps : List Step} (hsteps : ∀ st ∈ steps, st.Works) :
    ∃ p', p.Grows p' ∧ Parted files files' f g p' (s.after steps) (t.after (s.alone f j steps)) ∧
      List.Forall₂ (Observation.Like p' ((s.after steps).rank f)) (s.observed f steps)
        (t.observed g (s.alone f j steps)) := by
  induction steps generalizing s t p with
  | nil => exact ⟨p, .refl p, h, .nil⟩
  | cons st steps ih =>
    have hst := hsteps st List.mem_cons_self
    have hrest : ∀ st' ∈ steps, st'.Works := fun st' hst' =>
      hsteps st' (List.mem_cons_of_mem st hst')
    by_cases hc : s.concerns f st
    · have hgrows := (h.sound.step hst.not_isPut).held_grows hrest
      obtain ⟨p₁, hp₁, hparted₁, hlike⟩ := h.step_on hj hst hc fun n hn => rank_of_grows hgrows f hn
      obtain ⟨p', hp', hparted', hall⟩ := ih hparted₁ hrest
      rw [alone, if_pos hc, observed, if_pos hc, observed, if_pos (h.concerns hj hc)]
      exact ⟨p', hp₁.trans hp', hparted', .cons (hlike.mono hp') hall⟩
    · rw [alone, if_neg hc, observed, if_neg hc]
      exact ih (h.step_off hst (by simpa using hc)) hrest

end Parted

end Steps

/-! ## References -/

section References

variable {files : List SourceFile} {s : Session} {f : SourceFile} {i j : Nat}

theorem step_files (s : Session) (st : Step) : (s.step st).2.files = s.files := by
  unfold step
  split <;> rfl

/-- A step that checks the file concerns it, and checks the copy with the other numbers. -/
theorem checks_iff (hf : s.files[i]? = some f) (hi : ∀ k, s.files[k]? = some f → k = i)
    (st : Step) :
    st.Checks i ↔ s.concerns f st = true ∧ (st.renumbered j (s.rank f)).Checks j := by
  have hfile : ∀ k, s.file? k = some f ↔ k = i :=
    fun k => ⟨hi k, fun hk => by rw [hk]; exact hf⟩
  cases st with
  | evaluate q =>
    cases q <;> simp [concerns, subject?, request?, Step.renumbered, Query.renumbered, Step.Checks,
      Request.file, hfile]
  | evaluateD g =>
    cases g <;> simp [concerns, subject?, given?, Step.renumbered, Given.renumbered, Step.Checks,
      Request.file, hfile]
  | both k => simp [concerns, subject?, Step.renumbered, Step.Checks, hfile]
  | _ => simp [Step.renumbered, Step.Checks]

/-- The file is checked just if its copy is. -/
theorem checks_alone (hfiles : s.files = files) (hf : files[i]? = some f)
    (hi : ∀ k, files[k]? = some f → k = i) (steps : List Step) :
    (∃ st ∈ steps, st.Checks i) ↔ ∃ st ∈ s.alone f j steps, st.Checks j := by
  induction steps generalizing s with
  | nil => simp [alone]
  | cons st steps ih =>
    have hiff : st.Checks i ↔ s.concerns f st = true ∧ (st.renumbered j (s.rank f)).Checks j :=
      checks_iff (by rw [hfiles]; exact hf) (by rw [hfiles]; exact hi) st
    rw [List.exists_mem_cons_iff, ih ((step_files s st).trans hfiles), hiff, alone]
    by_cases hc : s.concerns f st
    · rw [if_pos hc, List.exists_mem_cons_iff]
      simp [hc]
    · simp [hc]

theorem works_alone {steps : List Step} (h : ∀ st ∈ steps, st.Works) :
    ∀ st ∈ s.alone f j steps, st.Works := by
  induction steps generalizing s with
  | nil => simp [alone]
  | cons st steps ih =>
    obtain ⟨hst, hrest⟩ := List.forall_mem_cons.1 h
    rw [alone]
    by_cases hc : s.concerns f st
    · rw [if_pos hc]
      exact List.forall_mem_cons.2 ⟨hst.renumbered j (s.rank f), ih hrest⟩
    · rw [if_neg hc]
      exact ih hrest

/-- What is filed under a file, if it was checked. -/
theorem mem_filed_number (sources : List (String × String)) (options : Options)
    {steps : List Step} (hsteps : ∀ st ∈ steps, ¬ st.IsPut)
    (hf : (SourceFile.number sources)[i]? = some f) (ref : Reference) :
    ref ∈ ((start (SourceFile.number sources) options true).after steps).state.recorder.filed f.id ↔
      (∃ st ∈ steps, st.Checks i) ∧ FileRefers f ref := by
  have hfiled := (start_sound (SourceFile.number sources) options).after_filed
    (start_filed (SourceFile.number sources) options) hsteps
  rw [hfiled.mem_filed]
  constructor
  · rintro ⟨f', hid, hchecked, href⟩
    obtain ⟨st, hst, k, hk, hchecks⟩ := hchecked.resolve_left id
    -- the number of a file is its place
    obtain rfl : k = i := congrArg FileId.index
      ((id_of_number hk).symm.trans (hid.trans (id_of_number hf)))
    rw [hf] at hk
    cases hk
    exact ⟨⟨st, hst, hchecks⟩, href⟩
  · rintro ⟨⟨st, hst, hchecks⟩, href⟩
    exact ⟨f, rfl, .inr ⟨st, hst, i, hf, hchecks⟩, href⟩

end References

/-! ## Sessions from the start -/

theorem start_result? (files : List SourceFile) (options : Options) (r : Request) :
    (start files options true).state.result? r = none := rfl

/-- The numbered files of the same name and text at two places. -/
theorem number_eq {sources sources' : List (String × String)} {i j : Nat} {f g : SourceFile}
    (hf : (SourceFile.number sources)[i]? = some f)
    (hg : (SourceFile.number sources')[j]? = some g) (hsame : sources[i]? = sources'[j]?) :
    f.name = g.name ∧ f.content = g.content := by
  rw [SourceFile.number, List.getElem?_mapIdx] at hf hg
  obtain ⟨source, hi, rfl⟩ := Option.map_eq_some_iff.1 hf
  obtain ⟨source', hj, rfl⟩ := Option.map_eq_some_iff.1 hg
  rw [hi, hj] at hsame
  cases hsame
  exact ⟨rfl, rfl⟩

/-- Steps on several files in turn give for each file what the steps on it give alone. -/
theorem observed_alone (sources sources' : List (String × String)) (options options' : Options)
    (steps : List Step) (hsteps : ∀ st ∈ steps, st.Works) {i j : Nat} {f g : SourceFile}
    (hf : (SourceFile.number sources)[i]? = some f)
    (hg : (SourceFile.number sources')[j]? = some g) (hsame : sources[i]? = sources'[j]?) :
    ∃ p : Pairing, p.left = f ∧ p.right = g ∧
      List.Forall₂
        (Observation.Like p (((start (SourceFile.number sources) options true).after steps).rank f))
        ((start (SourceFile.number sources) options true).observed f steps)
        ((start (SourceFile.number sources') options' true).observed g
          ((start (SourceFile.number sources) options true).alone f j steps)) := by
  obtain ⟨hname, hcontent⟩ := number_eq hf hg hsame
  let p : Pairing := ⟨f, g, hname, hcontent, [], .nil⟩
  have hparted : Parted (SourceFile.number sources) (SourceFile.number sources') f g p
      (start (SourceFile.number sources) options true)
      (start (SourceFile.number sources') options' true) := by
    refine ⟨rfl, rfl, start_sound _ options, start_sound _ options', .nil, ?_⟩
    refine .of_none (fun q _ => start_result? _ options q) (fun q _ => start_result? _ options' q)
      ?_ rfl
    intro m hm
    cases hm
  obtain ⟨p', hp, hparted', hall⟩ := hparted.run hg hsteps
  exact ⟨p', hparted'.left, hparted'.right, hall⟩

/-- The references that are filed under a file are those of the file alone. -/
theorem mem_filed_alone (sources sources' : List (String × String)) (options options' : Options)
    (steps : List Step) (hsteps : ∀ st ∈ steps, st.Works) {i j : Nat} {f g : SourceFile}
    (hf : (SourceFile.number sources)[i]? = some f)
    (hg : (SourceFile.number sources')[j]? = some g) (hsame : sources[i]? = sources'[j]?)
    (ref : Reference) :
    ref ∈ ((start (SourceFile.number sources) options true).after steps).state.recorder.filed f.id ↔
      ref ∈ ((start (SourceFile.number sources') options' true).after
        ((start (SourceFile.number sources) options true).alone f j steps)).state.recorder.filed
          g.id := by
  obtain ⟨-, hcontent⟩ := number_eq hf hg hsame
  have halone : ∀ st ∈ (start (SourceFile.number sources) options true).alone f j steps,
      ¬ st.IsPut := fun st hst => (works_alone hsteps st hst).not_isPut
  have hplace : ∀ k, (SourceFile.number sources)[k]? = some f → k = i := fun k hk =>
    congrArg FileId.index ((id_of_number hk).symm.trans (id_of_number hf))
  have hchecks : (∃ st ∈ steps, st.Checks i) ↔
      ∃ st ∈ (start (SourceFile.number sources) options true).alone f j steps, st.Checks j :=
    checks_alone rfl hf hplace steps
  have hrefers : FileRefers f ref ↔ FileRefers g ref := by
    rw [fileRefers_iff, fileRefers_iff, declarations?, declarations?, hcontent]
  rw [mem_filed_number sources options (fun st hst => (hsteps st hst).not_isPut) hf,
    mem_filed_number sources' options' halone hg, hrefers, hchecks]

end Session

end Demand.Compiler
