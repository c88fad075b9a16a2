import Demand.Proofs.Engine.Calls

/-!
# Layers: more about the evaluations of a discipline

A discipline says under which conditions evaluations end. What else holds of those evaluations is
shown as a layer over it: the bodies may rely on what the discipline says of the answers they get,
and nothing that the discipline shows is shown again (`Layer.discipline`).
-/

namespace Demand

variable {F : Family} {α : Type}

namespace Task

variable {before before' : F.Request → State F → Prop}
  {after after' : (q : F.Request) → State F → Outcome F q → State F → Prop}
  {stack : List F.Request}

/-- A task that relies on little is safe where the answers say more. -/
theorem Safe.of_after {t : Task F α} {s : State F} {Q : α → State F → Prop}
    (h : t.Safe before after stack s Q)
    (ha : ∀ q s o s', after' q s o s' → after q s o s') : t.Safe before after' stack s Q := by
  induction t generalizing s with
  | done a => exact h
  | ask q next ih => exact ⟨h.1, fun o s' ho => ih o (h.2 o s' (ha q s o s' ho))⟩
  | record ref next ih => exact ih h
  | report d next ih => exact ih h
  | isActive q next ih => exact fun b hb => ih b (h b hb)
  | current next ih => exact ih _ h
  | log level text next ih => exact ih h
  | visit change next ih => exact ih _ h

theorem Safe.of_before {t : Task F α} {s : State F} {Q : α → State F → Prop}
    (h : t.Safe before after stack s Q) (hb : ∀ q s, before q s → before' q s) :
    t.Safe before' after stack s Q := by
  induction t generalizing s with
  | done a => exact h
  | ask q next ih => exact ⟨hb q s h.1, fun o s' ho => ih o (h.2 o s' ho)⟩
  | record ref next ih => exact ih h
  | report d next ih => exact ih h
  | isActive q next ih => exact fun b hb => ih b (h b hb)
  | current next ih => exact ih _ h
  | log level text next ih => exact ih h
  | visit change next ih => exact ih _ h

theorem Safe.and {t : Task F α} {s : State F} {Q Q' : α → State F → Prop}
    (h : t.Safe before after stack s Q) (h' : t.Safe before' after stack s Q') :
    t.Safe (fun q s => before q s ∧ before' q s) after stack s fun a s' => Q a s' ∧ Q' a s' := by
  induction t generalizing s with
  | done a => exact ⟨h, h'⟩
  | ask q next ih => exact ⟨⟨h.1, h'.1⟩, fun o s' ho => ih o (h.2 o s' ho) (h'.2 o s' ho)⟩
  | record ref next ih => exact ih h h'
  | report d next ih => exact ih h h'
  | isActive q next ih => exact fun b hb => ih b (h b hb) (h' b hb)
  | current next ih => exact ih _ h h'
  | log level text next ih => exact ih h h'
  | visit change next ih => exact ih _ h h'

/-- What a task is known to do under weaker assumptions, it does besides. -/
theorem Safe.join {t : Task F α} {s : State F} {Q Q' : α → State F → Prop}
    (h : t.Safe before after stack s Q) (h' : t.Safe before' after' stack s Q')
    (ha : ∀ q s o s', after' q s o s' → after q s o s') :
    t.Safe before' after' stack s fun a s' => Q a s' ∧ Q' a s' :=
  ((h.of_after ha).and h').of_before fun _ _ hb => hb.2

/-- Reports are added at the end, and change nothing else. -/
theorem safe_reportAll (ds : List Diagnostic) {s : State F} :
    (reportAll ds).Safe before after stack s fun _ s' =>
      Still s s' ∧ s'.diagnostics = s.diagnostics ++ ds := by
  induction ds generalizing s with
  | nil => exact ⟨.refl s, (List.append_nil _).symm⟩
  | cons d ds ih =>
    refine ih.mono ?_
    rintro _ s' ⟨hstill, hdiagnostics⟩
    refine ⟨(Still.report s d).trans hstill, ?_⟩
    rw [hdiagnostics, Diagnostics.report, List.append_assoc]
    rfl

end Task

variable {rules : Rules F} {stops : Stop F → Prop}

/-- What holds before and after every evaluation besides what a discipline says, and why. -/
structure Layer (d : Discipline rules stops) where
  /-- What holds when a request is asked for under these active requests. -/
  before : List F.Request → F.Request → State F → Prop
  /-- What holds when it is answered. -/
  after : List F.Request → (r : F.Request) → State F → Outcome F r → State F → Prop
  cycle : ∀ {n stack r s s'}, d.before (n + 1) stack r s → before stack r s → r ∈ stack →
    Cycles stack r s s' → after stack r s (.error ⟨r⟩) s'
  hit : ∀ {n stack r s out s'}, d.before (n + 1) stack r s → before stack r s → r ∉ stack →
    s.served? r = some out → Serves rules stack r out s s' → after stack r s (.ok out) s'
  body : ∀ {n stack r s s₁}, d.before (n + 1) stack r s → before stack r s → r ∉ stack →
    s.served? r = none → Enters stack r s s₁ →
    (rules.body r).Safe (before (r :: stack))
      (fun q s o s' => Answers (r :: stack) q s o s' ∧ d.after (r :: stack) q s o s' ∧
        after (r :: stack) q s o s') (r :: stack) s₁
      fun out s₂ => ∀ s', Leaves rules r out s₂ s' → after stack r s (.ok out) s'

namespace Layer

variable {d : Discipline rules stops} (l : Layer d)

/-- The discipline with the layer. -/
def discipline : Discipline rules stops where
  before n stack r s := d.before n stack r s ∧ l.before stack r s
  after stack r s o s' := d.after stack r s o s' ∧ l.after stack r s o s'
  exhausted hb := d.exhausted hb.1
  faults hb := d.faults hb.1
  cycle hb hr hc := ⟨d.cycle hb.1 hr hc, l.cycle hb.1 hb.2 hr hc⟩
  hit hb hr hout hs := ⟨d.hit hb.1 hr hout hs, l.hit hb.1 hb.2 hr hout hs⟩
  body := by
    intro n stack r s s₁ hb hr hnone hin
    have hbase : (rules.body r).Safe (d.before n (r :: stack))
        (fun q s o s' => Answers (r :: stack) q s o s' ∧ d.after (r :: stack) q s o s' ∧
          l.after (r :: stack) q s o s') (r :: stack) s₁
        fun out s₂ => ∀ s', Leaves rules r out s₂ s' → d.after stack r s (.ok out) s' :=
      (d.body hb.1 hr hnone hin).of_after fun q s o s' h => ⟨h.1, h.2.1⟩
    exact (hbase.and (l.body hb.1 hb.2 hr hnone hin)).mono fun out s₂ h s' hout =>
      ⟨h.1 s' hout, h.2 s' hout⟩

end Layer

end Demand
