import Mathlib.Data.List.Chain
import Mathlib.Data.List.Nodup

/-!
# Walks that stop where they were before

From each member of a type one can go on to some others, in an order (`next`). A walk goes on from
one member to the next until it comes to one where it was before (`Walk.Extends`). The walks from
a member have an order in which each comes before those that go on from it (`Walk.Precedes`), and
going through them by recursion, with the members on the way in a list, meets each of them once
and in that order (`Walk.mem_iff_of_listed`, `Walk.pairwise_of_listed`). There is only one such
list (`Walk.eq_of_same_walks`). Some walk comes to where it was before just if a cycle can be
reached (`Walk.exists_revisits_iff`).
-/

namespace Demand.Walk

variable {α : Type} (next : α → List α)

/-- One can go on from `a` to `b`. -/
abbrev Link (a b : α) : Prop :=
  b ∈ next a

/-- The walk goes on from `a` to the members of the list, and before its last member it is nowhere
twice. -/
structure Extends (a : α) (w : List α) : Prop where
  nonempty : w ≠ []
  linked : (a :: w).IsChain (Link next)
  simple : (a :: w.dropLast).Nodup

/-- The last member of the walk from `a` is one where the walk was before. -/
def Revisits (a : α) (w : List α) : Prop :=
  ∃ b ∈ w.getLast?, b ∈ a :: w.dropLast

/-- The order of walks from a member: a walk comes before those that go on from it, and of two that
part the one that goes on to what stands first. -/
inductive Precedes : α → List α → List α → Prop
  | stop {a b : α} {w : List α} : Precedes a [] (b :: w)
  | part {a b c : α} {v w : List α} : [b, c].Sublist (next a) → Precedes a (b :: v) (c :: w)
  | along {a b : α} {v w : List α} : Precedes b v w → Precedes a (b :: v) (b :: w)

/-- The walks that go on from the end of a path to one of `bs`, gone through one after the other. Of
a member that is on the path none goes on; the others are on the path while theirs are gone
through. -/
inductive Listed : (path bs : List α) → List (List α) → Prop
  | nil {path : List α} : Listed path [] []
  | closed {path bs : List α} {b : α} {ws : List (List α)} :
      b ∈ path → Listed path bs ws → Listed path (b :: bs) ([b] :: ws)
  | opened {path bs : List α} {b : α} {vs ws : List (List α)} :
      b ∉ path → Listed (b :: path) (next b) vs → Listed path bs ws →
      Listed path (b :: bs) ([b] :: (vs.map (b :: ·) ++ ws))

variable {next} {a b : α} {path bs v w : List α} {vs ws : List (List α)}

/-- Going through the walks gives one list. -/
theorem Listed.unique (h : Listed next path bs vs) (h' : Listed next path bs ws) : vs = ws := by
  induction h generalizing ws with
  | nil =>
    cases h'
    rfl
  | closed hb _ ih =>
    cases h' with
    | closed _ h' => rw [ih h']
    | opened hb' _ _ => exact absurd hb hb'
  | opened hb _ _ ihv ih =>
    cases h' with
    | closed hb' _ => exact absurd hb' hb
    | opened _ hv h' => rw [ihv hv, ih h']

/-! ## Which walks are met -/

/-- The walk starts with one of `bs`, and before its last member it is nowhere twice and nowhere on
the path. -/
structure Met (next : α → List α) (path bs w : List α) : Prop where
  starts : ∃ b ∈ bs, ∃ v, w = b :: v
  linked : w.IsChain (Link next)
  simple : w.dropLast.Nodup
  apart : ∀ b ∈ w.dropLast, b ∉ path

theorem not_met_nil : ¬ Met next path bs [] := by
  intro h
  obtain ⟨b, -, v, hv⟩ := h.starts
  cases hv

theorem met_cons : Met next path bs (b :: v) ↔
    b ∈ bs ∧ (v = [] ∨ b ∉ path ∧ Met next (b :: path) (next b) v) := by
  cases v with
  | nil =>
    constructor
    · intro h
      obtain ⟨c, hc, u, hu⟩ := h.starts
      cases hu
      exact ⟨hc, .inl rfl⟩
    · intro h
      exact ⟨⟨b, h.1, [], rfl⟩, .singleton b, by simp, by simp⟩
  | cons c v =>
    constructor
    · intro h
      obtain ⟨b', hb, u, hu⟩ := h.starts
      cases hu
      have hlinked := List.isChain_cons_cons.1 h.linked
      have hsimple := h.simple
      have hapart := h.apart
      rw [List.dropLast_cons_cons] at hsimple hapart
      obtain ⟨hnot, hnodup⟩ := List.nodup_cons.1 hsimple
      obtain ⟨hpath, hrest⟩ := List.forall_mem_cons.1 hapart
      refine ⟨hb, .inr ⟨hpath, ⟨c, hlinked.1, v, rfl⟩, hlinked.2, hnodup, ?_⟩⟩
      intro x hx hmem
      rcases List.mem_cons.1 hmem with rfl | hmem
      · exact hnot hx
      · exact hrest x hx hmem
    · rintro ⟨hb, hv | ⟨hpath, h⟩⟩
      · cases hv
      · obtain ⟨c', hc, u, hu⟩ := h.starts
        cases hu
        refine ⟨⟨b, hb, c :: v, rfl⟩, .cons_cons hc h.linked, ?_, ?_⟩
        · rw [List.dropLast_cons_cons, List.nodup_cons]
          exact ⟨fun hmem => h.apart b hmem List.mem_cons_self, h.simple⟩
        · rw [List.dropLast_cons_cons, List.forall_mem_cons]
          exact ⟨hpath, fun x hx hmem => h.apart x hx (List.mem_cons_of_mem b hmem)⟩

theorem extends_iff_met : Extends next a w ↔ Met next [a] (next a) w := by
  cases w with
  | nil => exact ⟨fun h => absurd rfl h.nonempty, fun h => absurd h not_met_nil⟩
  | cons b v =>
    constructor
    · intro h
      have hlinked := List.isChain_cons_cons.1 h.linked
      obtain ⟨hnot, hnodup⟩ := List.nodup_cons.1 h.simple
      refine ⟨⟨b, hlinked.1, v, rfl⟩, hlinked.2, hnodup, ?_⟩
      intro c hc hca
      exact hnot (List.mem_singleton.1 hca ▸ hc)
    · intro h
      obtain ⟨b', hb, u, hu⟩ := h.starts
      cases hu
      refine ⟨List.cons_ne_nil b v, .cons_cons hb h.linked, List.nodup_cons.2 ⟨?_, h.simple⟩⟩
      exact fun hmem => h.apart a hmem List.mem_cons_self

/-- The walks that are gone through are those that start with one of `bs` and stop where they were
before. -/
theorem mem_iff_of_listed (h : Listed next path bs ws) (w : List α) :
    w ∈ ws ↔ Met next path bs w := by
  induction h generalizing w with
  | nil =>
    cases w with
    | nil => simp [not_met_nil]
    | cons c v => simp [met_cons]
  | @closed path bs b ws hb _ ih =>
    cases w with
    | nil => simp [ih, not_met_nil]
    | cons c v =>
      rw [List.mem_cons, ih, met_cons, met_cons, List.mem_cons]
      by_cases hcb : c = b
      · subst hcb
        simp [hb]
      · simp [hcb]
  | @opened path bs b vs ws hb _ _ ihv ih =>
    cases w with
    | nil => simp [ih, not_met_nil]
    | cons c v =>
      rw [List.mem_cons, List.mem_append, ih, met_cons, met_cons, List.mem_cons]
      by_cases hcb : c = b
      · subst hcb
        have hbelow : c :: v ∈ vs.map (c :: ·) ↔ Met next (c :: path) (next c) v := by
          rw [← ihv]
          simp
        rw [hbelow]
        simp only [List.cons.injEq, true_and, true_or, hb, not_false_eq_true]
        tauto
      · simp [hcb, Ne.symm hcb]

/-! ## Their order -/

/-- What goes on to `b` comes before what goes on to something after it. -/
theorem Met.preceded (hw : Met next path bs w) (hbs : b :: bs <:+ next a) :
    Precedes next a (b :: v) w := by
  obtain ⟨c, hc, u, rfl⟩ := hw.starts
  refine .part (List.Sublist.trans ?_ hbs.sublist)
  exact (List.singleton_sublist.2 hc).cons_cons b

/-- They are gone through in their order. -/
theorem pairwise_of_listed (h : Listed next path bs ws) (hbs : bs <:+ next a) :
    ws.Pairwise (Precedes next a) := by
  induction h generalizing a with
  | nil => exact .nil
  | @closed path bs b ws hb hws ih =>
    refine .cons (fun w hw => ?_) (ih ((List.suffix_cons b bs).trans hbs))
    exact ((mem_iff_of_listed hws w).1 hw).preceded hbs
  | @opened path bs b vs ws hb hvs hws ihv ih =>
    have hlater : ∀ u, ∀ w ∈ ws, Precedes next a (b :: u) w := fun u w hw =>
      ((mem_iff_of_listed hws w).1 hw).preceded hbs
    refine .cons (fun w hw => ?_) (List.pairwise_append.2 ⟨?_, ?_, ?_⟩)
    · rcases List.mem_append.1 hw with hw | hw
      · obtain ⟨v, hv, rfl⟩ := List.mem_map.1 hw
        obtain ⟨c, -, u, rfl⟩ := ((mem_iff_of_listed hvs v).1 hv).starts
        exact .along .stop
      · exact hlater [] w hw
    · exact List.pairwise_map.2 ((ihv List.suffix_rfl).imp .along)
    · exact ih ((List.suffix_cons b bs).trans hbs)
    · intro w hw
      obtain ⟨v, -, rfl⟩ := List.mem_map.1 hw
      exact hlater v

/-- Of two members of a list without repetition one stands first. -/
theorem not_sublist_swap {bs : List α} (hbs : bs.Nodup) {b c : α} (h : [b, c].Sublist bs) :
    ¬ [c, b].Sublist bs := by
  induction bs with
  | nil => cases h
  | cons d bs ih =>
    obtain ⟨hd, hnodup⟩ := List.nodup_cons.1 hbs
    intro h'
    cases h with
    | cons _ h =>
      cases h' with
      | cons _ h' => exact ih hnodup h h'
      | cons_cons _ _ => exact hd (h.subset (by simp))
    | cons_cons _ h =>
      cases h' with
      | cons _ h' => exact hd (h'.subset (by simp))
      | cons_cons _ _ => exact hd (h.subset (by simp))

section Unique

variable (hnext : ∀ a, (next a).Nodup)

include hnext

theorem Precedes.asymm (h : Precedes next a v w) : ¬ Precedes next a w v := by
  have hself : ∀ {a b : α}, ¬ [b, b].Sublist (next a) := fun h =>
    not_sublist_swap (hnext _) h h
  induction h with
  | stop => rintro ⟨⟩
  | part h =>
    intro h'
    cases h' with
    | part h' => exact not_sublist_swap (hnext _) h h'
    | along _ => exact hself h
  | along _ ih =>
    intro h'
    cases h' with
    | part h' => exact hself h'
    | along h' => exact ih h'

/-- Lists of the same walks in their order are the same. -/
theorem eq_of_same_walks (hmem : ∀ w, w ∈ vs ↔ w ∈ ws) (hvs : vs.Pairwise (Precedes next a))
    (hws : ws.Pairwise (Precedes next a)) : vs = ws := by
  have hirrefl : ∀ {us : List (List α)}, us.Pairwise (Precedes next a) → us.Nodup := by
    intro us hus
    refine hus.imp ?_
    rintro v _ h rfl
    exact h.asymm hnext h
  refine List.Perm.eq_of_pairwise (fun v w _ _ h h' => absurd h' (h.asymm hnext)) hvs hws ?_
  exact (List.perm_ext_iff_of_nodup (hirrefl hvs) (hirrefl hws)).2 hmem

end Unique

/-! ## Walks and cycles -/

theorem extends_concat : Extends next a (v ++ [b]) ↔
    (a :: (v ++ [b])).IsChain (Link next) ∧ (a :: v).Nodup := by
  constructor
  · intro h
    have hsimple := h.simple
    rw [List.dropLast_concat] at hsimple
    exact ⟨h.linked, hsimple⟩
  · rintro ⟨hlinked, hsimple⟩
    exact ⟨by simp, hlinked, by rwa [List.dropLast_concat]⟩

theorem revisits_concat : Revisits a (v ++ [b]) ↔ b ∈ a :: v := by
  simp [Revisits]

/-- A walk that has not come to where it was before goes on to everything next, and a walk that has
does not go on. -/
theorem Extends.goes_on_iff (h : Extends next a w) :
    Extends next a (w ++ [b]) ↔ ¬ Revisits a w ∧ ∃ c ∈ w.getLast?, b ∈ next c := by
  obtain ⟨v, c, rfl⟩ := (List.eq_nil_or_concat w).resolve_left h.nonempty
  rw [List.concat_eq_append] at h ⊢
  obtain ⟨hlinked, hsimple⟩ := extends_concat.1 h
  have hlinks : (a :: (v ++ [c] ++ [b])).IsChain (Link next) ↔ b ∈ next c := by
    have hlast : (a :: (v ++ [c])).getLast? = some c := by simp [List.getLast?_cons]
    rw [← List.cons_append, List.isChain_append, hlast]
    simp [hlinked]
  have hnodup : (a :: (v ++ [c])).Nodup ↔ c ∉ a :: v := by
    rw [← List.cons_append, List.nodup_append]
    have hne : (∀ x ∈ a :: v, ∀ y ∈ [c], x ≠ y) ↔ c ∉ a :: v := by
      simp only [List.mem_singleton, forall_eq]
      exact ⟨fun h hc => h c hc rfl, fun h x hx hxc => h (hxc ▸ hx)⟩
    rw [hne]
    simp [hsimple]
  rw [extends_concat, revisits_concat, hlinks, hnodup]
  simp [and_comm]

/-- Going on and on without an end, or until one is where one was before, makes a walk. -/
theorem exists_revisits_of_not_nodup {l : List α} (hl : (a :: l).IsChain (Link next))
    (h : ¬ (a :: l).Nodup) : ∃ w, Extends next a w ∧ Revisits a w := by
  -- the shortest part of the list that comes to where it was before
  induction l using List.reverseRecOn with
  | nil => simp at h
  | append_singleton l b ih =>
    by_cases hnodup : (a :: l).Nodup
    · refine ⟨l ++ [b], extends_concat.2 ⟨hl, hnodup⟩, revisits_concat.2 ?_⟩
      by_contra hb
      apply h
      rw [← List.cons_append, List.nodup_append]
      refine ⟨hnodup, by simp, ?_⟩
      rintro c hc d hd rfl
      exact hb (List.mem_singleton.1 hd ▸ hc)
    · rw [← List.cons_append] at hl
      exact ih hl.left_of_append hnodup

/-- Some walk comes to where it was before just if there is a cycle to be reached. -/
theorem exists_revisits_iff : (∃ w, Extends next a w ∧ Revisits a w) ↔
    ∃ b, Relation.ReflTransGen (Link next) a b ∧
      Relation.TransGen (Link next) b b := by
  have htrans : ∀ {b c : α} {l : List α}, (b :: l).IsChain (Link next) → c ∈ l →
      Relation.TransGen (Link next) b c := by
    intro b c l hl hc
    have htrans : (b :: l).IsChain (Relation.TransGen (Link next)) :=
      hl.imp fun _ _ => Relation.TransGen.single
    exact htrans.rel_cons hc
  constructor
  · rintro ⟨w, hw, hrevisits⟩
    obtain ⟨v, b, rfl⟩ := (List.eq_nil_or_concat w).resolve_left hw.nonempty
    rw [List.concat_eq_append] at hw hrevisits
    have hlinked := hw.linked
    refine ⟨b, (htrans hlinked (by simp)).to_reflTransGen, ?_⟩
    -- from where the walk was there first it comes back
    obtain ⟨p, q, hpq⟩ := List.append_of_mem (revisits_concat.1 hrevisits)
    have hback : (b :: (q ++ [b])) <:+ a :: v ++ [b] := by
      rw [hpq]
      exact ⟨p, by simp⟩
    exact htrans (hlinked.suffix hback) (by simp)
  · rintro ⟨b, hreach, hcycle⟩
    obtain ⟨l, hl, hlast⟩ := List.exists_isChain_cons_of_relationReflTransGen hreach
    obtain ⟨c, hbc, hcb⟩ := Relation.TransGen.head'_iff.1 hcycle
    obtain ⟨m, hm, hmlast⟩ := List.exists_isChain_cons_of_relationReflTransGen hcb
    have hb : b ∈ a :: l := hlast ▸ List.getLast_mem _
    have hb' : b ∈ c :: m := hmlast ▸ List.getLast_mem _
    refine exists_revisits_of_not_nodup (l := l ++ c :: m) ?_ ?_
    · rw [← List.cons_append, List.isChain_append]
      refine ⟨hl, hm, ?_⟩
      intro x hx y hy
      rw [List.getLast?_eq_some_getLast (List.cons_ne_nil a l), hlast] at hx
      cases hx
      cases hy
      exact hbc
    · rw [← List.cons_append, List.nodup_append]
      intro h
      exact h.2.2 b hb b hb' rfl

end Demand.Walk
