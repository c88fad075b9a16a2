import Demand.Proofs.Compiler.Likeness

/-!
# Twin runs

The body of a request and the body of one like it do the same in the same order: they ask for
requests that are alike, report the same at places that are alike, and end with results that are
alike if all answers are (`Twins`, `twins_body`). So two engines that keep results that are alike
for a file and for its copy (`Similar`) give answers that are alike, report the same, and keep
results that are alike afterwards (`follow_evaluate`). What they keep for other files does not
matter.
-/

namespace Demand.Compiler

open Demand.Language

/-! ## Tasks -/

/-- Two tasks that do the same, the first for a file and the second for its copy, and end as `Q`
says. The pairing may have grown when an answer comes, and grows where the files are read. -/
inductive Twins {α β : Type} (Q : Pairing → α → β → Prop) :
    Pairing → Task family α → Task family β → Prop
  | done {p : Pairing} {a : α} {b : β} : Q p a b → Twins Q p (.done a) (.done b)
  | ask {p : Pairing} {q q' : Request} {next : Outcome family q → Task family α}
      {next' : Outcome family q' → Task family β} : q.Like p q' →
      (∀ p', p.Grows p' → ∀ o o', LikeOutcome p' q q' o o' → Twins Q p' (next o) (next' o')) →
      Twins Q p (.ask q next) (.ask q' next')
  | report {p : Pairing} {d : Diagnostic} {next : Task family α} {next' : Task family β} :
      Twins Q p next next' → Twins Q p (.report (d.moved p.left.id) next) (.report d next')
  | log {p : Pairing} {level level' : LogLevel} {text text' : String} {next : Task family α}
      {next' : Task family β} :
      Twins Q p next next' → Twins Q p (.log level text next) (.log level' text' next')
  | read {p : Pairing} {next : World → Task family α} {next' : World → Task family β} :
      (∀ m hm, Twins Q (p.extend m hm) (next ⟨m⟩) (next' ⟨p.readings.length⟩)) →
      Twins Q p (.visit (fun w => ⟨w.readings + 1⟩) next)
        (.visit (fun w => ⟨w.readings + 1⟩) next')

namespace Twins

variable {α β γ δ : Type} {p : Pairing} {Q : Pairing → α → β → Prop} {Q' : Pairing → γ → δ → Prop}

theorem bind {t : Task family α} {t' : Task family β} {k : α → Task family γ}
    {k' : β → Task family δ} (h : Twins Q p t t')
    (hk : ∀ p', p.Grows p' → ∀ a b, Q p' a b → Twins Q' p' (k a) (k' b)) :
    Twins Q' p (t >>= k) (t' >>= k') := by
  show Twins Q' p (t.bind k) (t'.bind k')
  induction h with
  | done hab => exact hk _ (.refl _) _ _ hab
  | ask hq _ ih =>
    refine .ask hq fun p' hp o o' ho => ih p' hp o o' ho ?_
    exact fun p'' hp' => hk p'' (hp.trans hp')
  | report _ ih => exact .report (ih hk)
  | log _ ih => exact .log (ih hk)
  | read _ ih =>
    exact .read fun m hm => ih m hm fun p' hp => hk p' ((Pairing.grows_extend _ m hm).trans hp)

end Twins

section Bodies

variable {p : Pairing}

theorem twins_say (level level' : LogLevel) (text text' : String) :
    Twins (fun _ _ _ => True) p (Task.say level text) (Task.say level' text') :=
  .log (.done trivial)

theorem twins_report (problem : Problem) :
    Twins (fun _ _ _ => True) p (reportProblem p.left problem) (reportProblem p.right problem) := by
  unfold reportProblem
  rw [diagnostics_moved]
  induction problem.diagnostics p.right with
  | nil => exact .done trivial
  | cons d ds ih => exact .report ih

/-- Asking with a default. -/
theorem twins_evaluateD {q q' : Request} (hq : q.Like p q') {d : q.Output} {d' : q'.Output}
    (hd : ∀ p', p.Grows p' → LikeOutput p' q q' d d') :
    Twins (fun p' => LikeOutput p' q q') p (Task.evaluateD (F := family) q d)
      (Task.evaluateD (F := family) q' d') :=
  .ask hq fun p' hp _ _ ho => .done (ho.getD (hd p' hp))

theorem twins_parse :
    Twins (fun p' => LikeOutput p' (.parseModule p.left) (.parseModule p.right)) p
      (Task.evaluateD (F := family) (.parseModule p.left) none)
      (Task.evaluateD (F := family) (.parseModule p.right) none) :=
  twins_evaluateD .parseModule fun _ _ => .none

theorem twins_value {d d' : Definition} (h : d.Like p d') :
    Twins (fun _ v? v?' => v? = v?') p (Task.evaluateD (F := family) (.value d) none)
      (Task.evaluateD (F := family) (.value d') none) :=
  twins_evaluateD (.value h) fun _ _ => rfl

theorem twins_parseModule :
    Twins (fun p' => LikeOutput p' (.parseModule p.left) (.parseModule p.right)) p
      (parseModule p.left) (parseModule p.right) := by
  refine (twins_say _ _ _ _).bind fun p₁ hp₁ _ _ _ => ?_
  rw [p.readDeclarations_eq]
  cases readDeclarations p.right.content with
  | error problem =>
    rw [← hp₁.left, ← hp₁.right]
    exact (twins_report problem).bind fun _ _ _ _ _ => .done .none
  | ok ds =>
    refine .read fun m hm => .done (.some ?_)
    rw [List.forall₂_map_left_iff, List.forall₂_map_right_iff, List.forall₂_same]
    intro d _
    refine ⟨hp₁.left.symm, hp₁.right.symm, rfl, ?_⟩
    show (p₁.readings ++ [m])[p₁.readings.length]? = some m
    simp

theorem twins_lookup (name : String) :
    Twins (fun p' => LikeOutput p' (.lookup p.left name) (.lookup p.right name)) p
      (lookup p.left name) (lookup p.right name) := by
  refine twins_parse.bind fun p₁ hp₁ ds? ds?' h => .done ?_
  cases h with
  | none => exact .none
  | some hds => exact find?_like hds name

theorem twins_settle (span : Span) (n : Int) :
    Twins (fun _ v? v?' => v? = v?') p (settle p.left span n) (settle p.right span n) := by
  unfold settle
  cases fitting n with
  | some v => exact .done rfl
  | none => exact (twins_report _).bind fun _ _ _ _ _ => .done rfl

theorem twins_fold (e : Expr) :
    Twins (fun _ v? v?' => v? = v?') p (fold p.left e) (fold p.right e) := by
  induction e generalizing p with
  | integer v span => exact .done rfl
  | name n span =>
    have hlookup : Twins (fun p' => LikeOutput p' (.lookup p.left n) (.lookup p.right n)) p
        (Task.evaluateD (F := family) (.lookup p.left n) none)
        (Task.evaluateD (F := family) (.lookup p.right n) none) :=
      twins_evaluateD (.lookup n) fun _ _ => .none
    refine hlookup.bind fun p₁ hp₁ d? d?' h => ?_
    cases h with
    | none =>
      rw [← hp₁.left, ← hp₁.right]
      exact (twins_report _).bind fun _ _ _ _ _ => .done rfl
    | some hd => exact twins_value hd
  | negate e span ih =>
    refine ih.bind fun p₁ hp₁ v? v?' h => ?_
    subst h
    cases v? with
    | none => exact .done rfl
    | some v =>
      rw [← hp₁.left, ← hp₁.right]
      exact twins_settle span (-v)
  | binary op l r span ihl ihr =>
    -- both operands are looked at, also if the first has no value
    refine ihl.bind fun p₁ hp₁ a? a?' ha => ?_
    subst ha
    rw [← hp₁.left, ← hp₁.right]
    refine ihr.bind fun p₂ hp₂ b? b?' hb => ?_
    subst hb
    cases a? with
    | none => exact .done rfl
    | some a =>
      cases b? with
      | none => exact .done rfl
      | some b =>
        rw [← hp₂.left, ← hp₂.right]
        exact twins_settle span (op.apply a b)

/-- A definition is declared before just if the definition like it is. -/
theorem duplicate_like {all all' : List Definition}
    (hall : List.Forall₂ (Definition.Like p) all all') {d d' : Definition} (hd : d.Like p d') :
    Option.Rel (Definition.Like p)
      ((Definition.find? all d.name).filter fun first => first ≠ d)
      ((Definition.find? all' d'.name).filter fun first => first ≠ d') := by
  rw [hd.name_eq]
  have hfind := find?_like hall d'.name
  generalize Definition.find? all d'.name = first? at hfind ⊢
  generalize Definition.find? all' d'.name = first?' at hfind ⊢
  cases hfind with
  | none => exact .none
  | @some first first' hfirst =>
    have heq := hfirst.eq_iff hd
    by_cases h : first = d
    · rw [Option.filter_some_neg (by simpa using h), Option.filter_some_neg (by simpa using heq.1 h)]
      exact .none
    · have h' : first' ≠ d' := fun he => h (heq.2 he)
      rw [Option.filter_some_pos (by simpa using h), Option.filter_some_pos (by simpa using h')]
      exact .some hfirst

theorem twins_checkAll {all all' ds ds' : List Definition}
    (hall : List.Forall₂ (Definition.Like p) all all')
    (hds : List.Forall₂ (Definition.Like p) ds ds') :
    Twins (fun _ ok ok' => ok = ok') p (checkAll p.left all ds) (checkAll p.right all' ds') := by
  induction ds generalizing p ds' with
  | nil =>
    cases hds
    exact .done rfl
  | cons d ds ih =>
    cases hds with
    | @cons _ d' _ ds' hd hds =>
      have hrest : ∀ p', p.Grows p' → Twins (fun _ ok ok' => ok = ok') p'
          (checkAll p.left all ds) (checkAll p.right all' ds') := by
        intro p' hp
        rw [← hp.left, ← hp.right]
        exact ih (forall₂_like_mono hall hp) (forall₂_like_mono hds hp)
      rw [checkAll, checkAll]
      have hdup := duplicate_like hall hd
      generalize (Definition.find? all d.name).filter (fun first => first ≠ d) = first? at hdup ⊢
      generalize (Definition.find? all' d'.name).filter (fun first => first ≠ d') = first?'
        at hdup ⊢
      cases hdup with
      | none =>
        refine (twins_value hd).bind fun p₁ hp₁ v? v?' hv => ?_
        subst hv
        refine (hrest p₁ hp₁).bind fun _ _ rest rest' h => .done ?_
        rw [h]
      | some hfirst =>
        dsimp only
        rw [hd.declaration, hfirst.declaration]
        refine (twins_report _).bind fun p₁ hp₁ _ _ _ => ?_
        refine (hrest p₁ hp₁).bind fun _ _ rest rest' h => .done ?_
        rw [h]

theorem twins_check :
    Twins (fun _ ok ok' => ok = ok') p (check p.left) (check p.right) := by
  refine (twins_say _ _ _ _).bind fun p₁ hp₁ _ _ _ => ?_
  rw [← hp₁.left, ← hp₁.right]
  refine twins_parse.bind fun p₂ hp₂ ds? ds?' h => ?_
  cases h with
  | none => exact .done rfl
  | some hds =>
    rw [← hp₂.left, ← hp₂.right]
    exact twins_checkAll hds hds

theorem twins_emitAll {ds ds' : List Definition} (hds : List.Forall₂ (Definition.Like p) ds ds') :
    Twins (fun _ code? code?' => code? = code?') p (emitAll ds) (emitAll ds') := by
  induction ds generalizing p ds' with
  | nil =>
    cases hds
    exact .done rfl
  | cons d ds ih =>
    cases hds with
    | @cons _ d' _ ds' hd hds =>
      refine (twins_value hd).bind fun p₁ hp₁ v? v?' hv => ?_
      subst hv
      cases v? with
      | none => exact .done rfl
      | some v =>
        refine (ih (forall₂_like_mono hds hp₁)).bind fun _ _ code? code?' h => .done ?_
        rw [h, globalLine, globalLine, hd.name_eq]

theorem twins_emit :
    Twins (fun _ code? code?' => code? = code?') p (emit p.left) (emit p.right) := by
  refine .ask .check fun p₁ hp₁ ok ok' hok => ?_
  rw [← hp₁.left, ← hp₁.right] at hok ⊢
  refine .ask .parseModule fun p₂ hp₂ ds ds' hds => ?_
  cases ok with
  | error c =>
    cases ok' with
    | error c' => exact .done rfl
    | ok b' => exact hok.elim
  | ok b =>
    cases ok' with
    | error c' => exact hok.elim
    | ok b' =>
      obtain rfl : b = b' := hok
      cases b with
      | false => exact .done rfl
      | true =>
        cases ds with
        | error c =>
          cases ds' with
          | error c' => exact .done rfl
          | ok ds?' => exact hds.elim
        | ok ds? =>
          cases ds' with
          | error c' => exact hds.elim
          | ok ds?' =>
            cases hds with
            | none => exact .done rfl
            | some hds =>
              refine (twins_emitAll hds).bind fun _ _ code? code?' h => .done ?_
              rw [h, p₁.name_eq]

/-- Requests that are alike have bodies that do the same. -/
theorem twins_body {r r' : Request} (h : r.Like p r') :
    Twins (fun p' => LikeOutput p' r r') p (rules.body r) (rules.body r') := by
  cases h with
  | parseModule => exact twins_parseModule
  | lookup name => exact twins_lookup name
  | value hd =>
    refine (twins_say _ _ _ _).bind fun p₁ hp₁ _ _ _ => ?_
    rw [hd.left, hd.right, hd.declaration, ← hp₁.left, ← hp₁.right]
    exact twins_fold _
  | check => exact twins_check
  | emit => exact twins_emit

end Bodies

/-! ## States -/

/-- Two engines that keep results that are alike for a file and for its copy. The second reads no
other file, and neither keeps values of readings that are still to come. -/
structure Similar (p : Pairing) (s t : State family) : Prop where
  results : ∀ r r', r.Like p r' → Option.Rel (LikeOutput p r r') (s.result? r) (t.result? r')
  below : ∀ m ∈ p.readings, m < s.world.readings
  counted : t.world.readings = p.readings.length
  fresh : ∀ d : Definition, d.file = p.left → s.world.readings ≤ d.reading →
    s.result? (.value d) = none
  fresh' : ∀ d : Definition, d.file = p.right → t.world.readings ≤ d.reading →
    t.result? (.value d) = none

namespace Similar

variable {p : Pairing} {s t s' t' : State family}

/-- Nothing is read, and no value is kept of a reading that is still to come. -/
theorem update (h : Similar p s t) (hs : s'.world = s.world) (ht : t'.world = t.world)
    (hresults : ∀ r r', r.Like p r' →
      Option.Rel (LikeOutput p r r') (s'.result? r) (t'.result? r'))
    (hfresh : ∀ d : Definition, s.world.readings ≤ d.reading → s.result? (.value d) = none →
      s'.result? (.value d) = none)
    (hfresh' : ∀ d : Definition, t.world.readings ≤ d.reading → t.result? (.value d) = none →
      t'.result? (.value d) = none) : Similar p s' t' where
  results := hresults
  below := by
    rw [hs]
    exact h.below
  counted := by
    rw [ht]
    exact h.counted
  fresh d hd hreading := by
    rw [hs] at hreading
    exact hfresh d hreading (h.fresh d hd hreading)
  fresh' d hd hreading := by
    rw [ht] at hreading
    exact hfresh' d hreading (h.fresh' d hd hreading)

/-- Only the cache and the readings matter. -/
theorem congr (h : Similar p s t) (hs : s'.cache = s.cache) (hw : s'.world = s.world)
    (ht : t'.cache = t.cache) (hw' : t'.world = t.world) : Similar p s' t' := by
  have hleft : ∀ r, s'.result? r = s.result? r := fun r => by rw [State.result?, hs]; rfl
  have hright : ∀ r, t'.result? r = t.result? r := fun r => by rw [State.result?, ht]; rfl
  refine h.update hw hw' (fun r r' hr => ?_) (fun d _ hd => ?_) fun d _ hd => ?_
  · rw [hleft, hright]
    exact h.results r r' hr
  · rw [hleft, hd]
  · rw [hright, hd]

/-- A reading of the file and one of its copy are paired. -/
theorem read (h : Similar p s t) (hs : s'.cache = s.cache)
    (hw : s'.world.readings = s.world.readings + 1) (ht : t'.cache = t.cache)
    (hw' : t'.world.readings = t.world.readings + 1) :
    Similar (p.extend s.world.readings h.below) s' t' := by
  have hleft : ∀ r, s'.result? r = s.result? r := fun r => by rw [State.result?, hs]; rfl
  have hright : ∀ r, t'.result? r = t.result? r := fun r => by rw [State.result?, ht]; rfl
  have hgrows := p.grows_extend s.world.readings h.below
  constructor
  case results =>
    intro r r' hr
    rw [hleft, hright]
    have hold : r.Like p r' → Option.Rel (LikeOutput (p.extend s.world.readings h.below) r r')
        (s.result? r) (t.result? r') := by
      intro hr
      have hrel := h.results r r' hr
      generalize s.result? r = x at hrel ⊢
      generalize t.result? r' = y at hrel ⊢
      cases hrel with
      | none => exact .none
      | some hout => exact .some (hout.mono hgrows)
    cases hr with
    | parseModule => exact hold .parseModule
    | lookup name => exact hold (.lookup name)
    | check => exact hold .check
    | emit => exact hold .emit
    | @value d d' hd =>
      have hreading : (p.readings ++ [s.world.readings])[d'.reading]? = some d.reading := hd.reading
      rcases Nat.lt_or_ge d'.reading p.readings.length with hlt | hge
      · rw [List.getElem?_append_left hlt] at hreading
        exact hold (.value ⟨hd.left, hd.right, hd.declaration, hreading⟩)
      · -- the reading is the new one, of which no values are kept
        rw [List.getElem?_append_right hge] at hreading
        obtain ⟨_, hnew⟩ := List.getElem?_eq_some_iff.1 hreading
        have hd_eq : s.world.readings = d.reading := by simpa using hnew
        rw [h.fresh d hd.left (Nat.le_of_eq hd_eq), h.fresh' d' hd.right (by rw [h.counted]; exact hge)]
        exact .none
  case below =>
    intro m hm
    rcases List.mem_append.1 hm with hm | hm
    · have := h.below m hm
      omega
    · rw [List.mem_singleton.1 hm]
      omega
  case counted =>
    show t'.world.readings = (p.readings ++ [s.world.readings]).length
    rw [hw', h.counted, List.length_append]
    rfl
  case fresh =>
    intro d hd hreading
    rw [hleft]
    exact h.fresh d hd (by omega)
  case fresh' =>
    intro d hd hreading
    rw [hright]
    exact h.fresh' d hd (by omega)

/-- What is served for requests that are alike is alike. -/
theorem served (h : Similar p s t) {r r' : Request} (hr : r.Like p r') :
    Option.Rel (LikeOutput p r r') (s.served? r) (t.served? r') := by
  unfold State.served?
  rw [hr.inEngine_eq]
  by_cases hin : family.inEngine r'
  · rw [if_pos hin, if_pos hin]
    exact h.results r r' hr
  · rw [if_neg hin, if_neg hin]
    have hnone : ∀ q, (if family.inStore q = true then family.fetch q s.world else none) = none :=
      fun q => ite_self none
    have hnone' : ∀ q, (if family.inStore q = true then family.fetch q t.world else none) = none :=
      fun q => ite_self none
    rw [hnone, hnone']
    exact .none

end Similar

/-- The world of the compiler is changed by readings alone. -/
theorem world_of_leaves {r : Request} {out : Request.Output r} {s s' : State family}
    (h : Leaves rules r out s s') : s'.world = s.world := by
  rw [h.world]
  unfold Rules.told
  split <;> split <;> rfl

theorem world_of_serves {stack : List Request} {r : Request} {out : Request.Output r}
    {s s' : State family} (h : Serves rules stack r out s s') : s'.world = s.world := by
  rw [h.world]
  unfold Rules.told
  split <;> rfl

/-- Results that are alike may be kept for requests that are alike. -/
theorem Similar.leaves {p : Pairing} {s t s' t' : State family} (h : Similar p s t)
    {r r' : Request} (hr : r.Like p r') {out : r.Output} {out' : r'.Output}
    (hout : LikeOutput p r r' out out') (hs : Leaves rules r out s s')
    (ht : Leaves rules r' out' t t') : Similar p s' t' := by
  -- a value that is computed is of a reading that was made
  have hne : ∀ d : Definition, s.world.readings ≤ d.reading → Request.value d ≠ r := by
    rintro d hreading rfl
    cases hr with
    | value hlike =>
      have := h.below _ (List.mem_of_getElem? hlike.reading)
      omega
  have hne' : ∀ d : Definition, t.world.readings ≤ d.reading → Request.value d ≠ r' := by
    rintro d hreading rfl
    cases hr with
    | value hlike =>
      obtain ⟨hlt, -⟩ := List.getElem?_eq_some_iff.1 hlike.reading
      have := h.counted
      omega
  refine h.update (world_of_leaves hs) (world_of_leaves ht) (fun q q' hq => ?_)
    (fun d hd hnone => ?_) fun d hd hnone => ?_
  · by_cases hqr : q = r
    · have hqr' : q' = r' := (hq.eq_iff hr).1 hqr
      subst hqr hqr'
      by_cases hin : family.inEngine q
      · rw [hs.result_self hin, ht.result_self (by rw [← hr.inEngine_eq]; exact hin)]
        exact .some hout
      · have hin' : ¬ family.inEngine q' = true := by rw [← hr.inEngine_eq]; exact hin
        rw [State.result?, hs.cache (by simpa using hin), State.result?,
          ht.cache (by simpa using hin')]
        exact h.results q q' hq
    · have hqr' : q' ≠ r' := fun he => hqr ((hq.eq_iff hr).2 he)
      rw [hs.result_of_ne q hqr, ht.result_of_ne q' hqr']
      exact h.results q q' hq
  · rw [hs.result_of_ne _ (hne d hd), hnone]
  · rw [ht.result_of_ne _ (hne' d hd), hnone]

/-! ## Runs -/

/-- One engine goes from `s` to `s'` and the other from `t` to `t'`: they are similar afterwards, and
report the same. -/
structure Follow (p p' : Pairing) (s t s' t' : State family) : Prop where
  grows : p.Grows p'
  similar : Similar p' s' t'
  reported : ∃ ds, s'.diagnostics = s.diagnostics ++ ds.map (Diagnostic.moved p.left.id) ∧
    t'.diagnostics = t.diagnostics ++ ds

namespace Follow

variable {p p' p'' : Pairing} {s t s' t' s'' t'' : State family}

theorem trans (h : Follow p p' s t s' t') (h' : Follow p' p'' s' t' s'' t'') :
    Follow p p'' s t s'' t'' := by
  refine ⟨h.grows.trans h'.grows, h'.similar, ?_⟩
  obtain ⟨ds, hs, ht⟩ := h.reported
  obtain ⟨ds', hs', ht'⟩ := h'.reported
  refine ⟨ds ++ ds', ?_, ?_⟩
  · rw [hs', hs, h.grows.left, List.map_append, List.append_assoc]
  · rw [ht', ht, List.append_assoc]

/-- Nothing is reported. -/
theorem quiet (hp : p.Grows p') (h : Similar p' s' t') (hs : s'.diagnostics = s.diagnostics)
    (ht : t'.diagnostics = t.diagnostics) : Follow p p' s t s' t' :=
  ⟨hp, h, [], by simpa using hs, by simpa using ht⟩

end Follow

section Runs

variable {α β : Type} {p : Pairing} {s t s' t' : State family}

/-- Twin tasks are run alike, if the requests that they ask for are answered alike. -/
theorem Twins.follow {evaluate evaluate' : (r : Request) → Eval family (Outcome family r)}
    {stack stack' : List Request} {p₀ : Pairing}
    (hev : ∀ p, p₀.Grows p → ∀ q q' s t o o' s' t', q.Like p q' → Similar p s t →
      evaluate q s = .ok o s' → evaluate' q' t = .ok o' t' →
      ∃ p', Follow p p' s t s' t' ∧ LikeOutcome p' q q' o o')
    {Q : Pairing → α → β → Prop} {a : α} {b : β} {T : Task family α} {T' : Task family β}
    (hp : p₀.Grows p) (h : Twins Q p T T') (hst : Similar p s t)
    (hs : T.run evaluate stack s = .ok a s') (ht : T'.run evaluate' stack' t = .ok b t') :
    ∃ p', Follow p p' s t s' t' ∧ Q p' a b := by
  induction h generalizing s t with
  | done hab =>
    cases hs
    cases ht
    exact ⟨_, .quiet (.refl _) hst rfl rfl, hab⟩
  | ask hq _ ih =>
    rw [Task.run] at hs ht
    obtain ⟨o, s₁, ho, hs⟩ := Eval.bind_eq_ok.1 hs
    obtain ⟨o', t₁, ho', ht⟩ := Eval.bind_eq_ok.1 ht
    obtain ⟨p₁, hfollow, hlike⟩ := hev _ hp _ _ _ _ _ _ _ _ hq hst ho ho'
    obtain ⟨p₂, hfollow', hab⟩ :=
      ih p₁ hfollow.grows o o' hlike (hp.trans hfollow.grows) hfollow.similar hs ht
    exact ⟨p₂, hfollow.trans hfollow', hab⟩
  | @report p d next next' _ ih =>
    have hs : next.run evaluate stack
        { s with diagnostics := s.diagnostics ++ [d.moved p.left.id] } = .ok a s' := hs
    have ht : next'.run evaluate' stack' { t with diagnostics := t.diagnostics ++ [d] } =
        .ok b t' := ht
    obtain ⟨p₁, hfollow, hab⟩ := ih hp (by exact hst.congr rfl rfl rfl rfl) hs ht
    refine ⟨p₁, ⟨hfollow.grows, hfollow.similar, ?_⟩, hab⟩
    obtain ⟨ds, hds, hds'⟩ := hfollow.reported
    refine ⟨d :: ds, ?_, ?_⟩
    · rw [hds, List.map_cons, List.append_assoc]
      rfl
    · rw [hds', List.append_assoc]
      rfl
  | @log p level level' text text' next next' _ ih =>
    have hs : next.run evaluate stack { s with log := s.log.write level text } = .ok a s' := hs
    have ht : next'.run evaluate' stack' { t with log := t.log.write level' text' } = .ok b t' := ht
    obtain ⟨p₁, hfollow, hab⟩ := ih hp (by exact hst.congr rfl rfl rfl rfl) hs ht
    exact ⟨p₁, ⟨hfollow.grows, hfollow.similar, hfollow.reported⟩, hab⟩
  | @read p next next' _ ih =>
    have hgrows := p.grows_extend s.world.readings hst.below
    have hcounted : t.world = ⟨p.readings.length⟩ := by
      rw [← hst.counted]
    have hs : (next ⟨s.world.readings⟩).run evaluate stack
        { s with world := ⟨s.world.readings + 1⟩ } = .ok a s' := hs
    have ht : (next' ⟨p.readings.length⟩).run evaluate' stack'
        { t with world := ⟨t.world.readings + 1⟩ } = .ok b t' := by
      rw [← hcounted]
      exact ht
    have hread : Similar (p.extend s.world.readings hst.below)
        { s with world := ⟨s.world.readings + 1⟩ } { t with world := ⟨t.world.readings + 1⟩ } :=
      hst.read rfl rfl rfl rfl
    obtain ⟨p₁, hfollow, hab⟩ := ih s.world.readings hst.below (hp.trans hgrows) hread hs ht
    exact ⟨p₁, ⟨hgrows.trans hfollow.grows, hfollow.similar, hfollow.reported⟩, hab⟩

/-- Requests that are alike are answered alike. -/
theorem follow_evaluate {n n' : Nat} {stack stack' : List Request} {r r' : Request}
    {o : Outcome family r} {o' : Outcome family r'}
    (hstack : List.Forall₂ (Request.Like p) stack stack') (hr : r.Like p r')
    (hst : Similar p s t) (hs : rules.evaluate n stack r s = .ok o s')
    (ht : rules.evaluate n' stack' r' t = .ok o' t') :
    ∃ p', Follow p p' s t s' t' ∧ LikeOutcome p' r r' o o' := by
  induction n generalizing n' stack stack' r r' p s t s' t' with
  | zero => cases hs
  | succ n ih =>
    cases n' with
    | zero => cases ht
    | succ n' =>
      have hmem := mem_iff_of_like hstack hr
      have hserved := hst.served hr
      rcases Rules.evaluate_cases hs with ⟨hactive, hc, rfl⟩ | ⟨hactive, out, hl, hsv, rfl⟩ |
        ⟨hactive, hl, s₁, out, s₂, -, hin, hbody, hout, rfl⟩
      · rcases Rules.evaluate_cases ht with ⟨hactive', hc', rfl⟩ | ⟨hactive', -⟩ | ⟨hactive', -⟩
        · refine ⟨p, ⟨.refl p, hst.congr hc.cache hc.world hc'.cache hc'.world, ?_⟩, hr⟩
          refine ⟨Eval.cycleReport (F := family) stack' r', ?_, hc'.diagnostics⟩
          rw [hc.diagnostics, cycleReport_moved hstack hr]
        · exact absurd (hmem.1 hactive) hactive'
        · exact absurd (hmem.1 hactive) hactive'
      · rw [State.served?_of_lookup hl] at hserved
        rcases Rules.evaluate_cases ht with ⟨hactive', -⟩ | ⟨hactive', out', hl', hsv', rfl⟩ |
          ⟨hactive', hl', -⟩
        · exact absurd (hmem.2 hactive') hactive
        · rw [State.served?_of_lookup hl'] at hserved
          cases hserved with
          | some hlike =>
            refine ⟨p, .quiet (.refl p) ?_ hsv.diagnostics hsv'.diagnostics, hlike⟩
            exact hst.congr hsv.cache (world_of_serves hsv) hsv'.cache (world_of_serves hsv')
        · rw [State.served?_of_lookup hl'] at hserved
          cases hserved
      · rw [State.served?_of_lookup hl] at hserved
        rcases Rules.evaluate_cases ht with ⟨hactive', -⟩ | ⟨hactive', out', hl', -⟩ |
          ⟨hactive', hl', t₁, out', t₂, -, hin', hbody', hout', rfl⟩
        · exact absurd (hmem.2 hactive') hactive
        · rw [State.served?_of_lookup hl'] at hserved
          cases hserved
        · have hentered : Similar p s₁ t₁ := hst.congr hin.cache hin.world hin'.cache hin'.world
          obtain ⟨p₁, hfollow, hlike⟩ := (twins_body hr).follow
            (fun p₁ hp₁ q q' s t o o' s' t' hq hsim hs ht =>
              ih (.cons (hr.mono hp₁) (hstack.imp fun _ _ h => h.mono hp₁)) hq hsim hs ht)
            (.refl p) hentered hbody hbody'
          refine ⟨p₁, ⟨hfollow.grows, ?_, ?_⟩, hlike⟩
          · exact hfollow.similar.leaves (hr.mono hfollow.grows) hlike hout hout'
          · obtain ⟨ds, hds, hds'⟩ := hfollow.reported
            refine ⟨ds, ?_, ?_⟩
            · rw [hout.diagnostics, hds, hin.diagnostics]
            · rw [hout'.diagnostics, hds', hin'.diagnostics]

end Runs

end Demand.Compiler
