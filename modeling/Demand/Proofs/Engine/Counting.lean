import Demand.Proofs.Engine.Calls

/-!
# Counts of computations

The statistics are one entry for each kind that was computed, in the order of the numbers of the
kinds (`Family.tally`), and a computation adds one to the entry of its kind (`countIn_tally`). A
request whose result is there is served without anything being counted or reported
(`Rules.unmoved_of_served`).
-/

namespace Demand

variable {F : Family}

/-! ## Entries -/

/-- The entries of kinds that were computed so many times. A kind that was not computed has none. -/
def Family.tally (F : Family) (ks : List F.Kind) (n : F.Kind → Nat) : List KindStatistics :=
  (ks.map fun k => ⟨F.typeId k, F.kindName k, n k, ⟨0⟩⟩).filter fun e => e.evaluations ≠ 0

section Tally

variable {ks : List F.Kind} {k : F.Kind} {n m : F.Kind → Nat}

theorem tally_cons_of_zero (h : n k = 0) : F.tally (k :: ks) n = F.tally ks n :=
  List.filter_cons_of_neg (by simpa using h)

theorem tally_cons_of_pos (h : n k ≠ 0) :
    F.tally (k :: ks) n = ⟨F.typeId k, F.kindName k, n k, ⟨0⟩⟩ :: F.tally ks n :=
  List.filter_cons_of_pos (by simpa using h)

theorem tally_congr (h : ∀ k ∈ ks, n k = m k) : F.tally ks n = F.tally ks m := by
  unfold Family.tally
  rw [List.map_congr_left fun k hk => by rw [h k hk]]

theorem exists_kind_of_mem_tally {s : KindStatistics} (h : s ∈ F.tally ks n) :
    ∃ k ∈ ks, s.typeId = F.typeId k := by
  obtain ⟨k, hk, rfl⟩ := List.mem_map.1 (List.mem_of_mem_filter h)
  exact ⟨k, hk, rfl⟩

/-- An entry before all others is put in front. -/
theorem countIn_of_lt {id : TypeId} {entries : List KindStatistics}
    (h : ∀ s ∈ entries, id.code < s.typeId.code) (name : String) :
    Statistics.countIn id name entries = ⟨id, name, 1, ⟨0⟩⟩ :: entries := by
  cases entries with
  | nil => rfl
  | cons s entries =>
    have hlt := h s List.mem_cons_self
    have hne : s.typeId ≠ id := by
      rintro rfl
      exact Nat.lt_irrefl _ hlt
    rw [Statistics.countIn, if_neg hne, if_pos hlt]

/-- A computation is counted for its kind, if the kinds are listed in the order of their numbers. -/
theorem countIn_tally (hks : ks.Pairwise fun j k => (F.typeId j).code < (F.typeId k).code)
    (hk : k ∈ ks) (n : F.Kind → Nat) :
    Statistics.countIn (F.typeId k) (F.kindName k) (F.tally ks n) =
      F.tally ks fun j => n j + if k = j then 1 else 0 := by
  induction ks with
  | nil => cases hk
  | cons j ks ih =>
    obtain ⟨hlt, hks⟩ := List.pairwise_cons.1 hks
    rcases List.mem_cons.1 hk with rfl | hk
    · -- the kinds after it have larger numbers, so their entries stay
      have hrest : F.tally ks (fun j => n j + if k = j then 1 else 0) = F.tally ks n := by
        refine tally_congr fun j hj => ?_
        have hne : k ≠ j := by
          rintro rfl
          exact Nat.lt_irrefl _ (hlt k hj)
        rw [if_neg hne, Nat.add_zero]
      have hcount : n k + (if k = k then 1 else 0) = n k + 1 := by rw [if_pos rfl]
      have hself : F.tally (k :: ks) (fun j => n j + if k = j then 1 else 0) =
          ⟨F.typeId k, F.kindName k, n k + 1, ⟨0⟩⟩ :: F.tally ks n := by
        rw [tally_cons_of_pos (by rw [hcount]; exact Nat.succ_ne_zero _), hcount, hrest]
      rw [hself]
      by_cases hzero : n k = 0
      · have hafter : ∀ s ∈ F.tally ks n, (F.typeId k).code < s.typeId.code := by
          intro s hs
          obtain ⟨j, hj, hid⟩ := exists_kind_of_mem_tally hs
          rw [hid]
          exact hlt j hj
        rw [tally_cons_of_zero hzero, countIn_of_lt hafter, hzero]
      · rw [tally_cons_of_pos hzero, Statistics.countIn, if_pos rfl]
    · have hless := hlt k hk
      have hkj : k ≠ j := by
        rintro rfl
        exact Nat.lt_irrefl _ hless
      by_cases hzero : n j = 0
      · rw [tally_cons_of_zero hzero, tally_cons_of_zero (by rw [if_neg hkj, hzero]), ih hks hk]
      · have hid : F.typeId j ≠ F.typeId k := by
          intro hid
          rw [hid] at hless
          exact Nat.lt_irrefl _ hless
        rw [tally_cons_of_pos hzero, Statistics.countIn, if_neg hid, if_neg (Nat.lt_asymm hless),
          ih hks hk, tally_cons_of_pos (by rw [if_neg hkj]; exact hzero), if_neg hkj, Nat.add_zero]

end Tally

/-! ## Requests whose results are there -/

/-- What is served, counted and reported is the same. -/
structure Unmoved (s s' : State F) : Prop where
  options : s'.options = s.options
  served : ∀ q, s'.served? q = s.served? q
  diagnostics : s'.diagnostics = s.diagnostics
  statistics : s'.statistics = s.statistics

namespace Unmoved

variable {s s' s'' : State F}

theorem trans (h : Unmoved s s') (h' : Unmoved s' s'') : Unmoved s s'' :=
  ⟨h'.options.trans h.options, fun q => (h'.served q).trans (h.served q),
    h'.diagnostics.trans h.diagnostics, h'.statistics.trans h.statistics⟩

end Unmoved

section Served

variable {rules : Rules F} {n : Nat} {stack : List F.Request} {r : F.Request} {s s' : State F}
  {o : Outcome F r} {out : F.Output r}

/-- A result that is there is the answer, and nothing else happens. -/
theorem Rules.unmoved_of_served (lawful : rules.Lawful)
    (h : rules.evaluate n stack r s = .ok o s') (hr : r ∉ stack) (hserved : s.served? r = some out) :
    o = .ok out ∧ Unmoved s s' := by
  cases n with
  | zero => cases h
  | succ n =>
    rcases evaluate_cases h with ⟨hmem, -, -⟩ | ⟨-, out', hl, hserves, rfl⟩ | ⟨-, hl, -⟩
    · exact absurd hmem hr
    · have hsame : some out' = some out := (State.served?_of_lookup hl).symm.trans hserved
      cases hsame
      exact ⟨rfl, hserves.options, hserves.served? lawful, hserves.diagnostics,
        hserves.statistics⟩
    · rw [State.served?_of_lookup hl] at hserved
      cases hserved

theorem Rules.ends_served (lawful : rules.Lawful) (n : Nat) (stack : List F.Request)
    (r : F.Request) (s : State F) :
    Eval.Ends (fun _ => True) (rules.evaluate n stack r) s fun o s' =>
      r ∉ stack → ∀ out, s.served? r = some out → o = .ok out ∧ Unmoved s s' := by
  unfold Eval.Ends
  cases h : rules.evaluate n stack r s with
  | ok o s' => exact fun hr out hserved => rules.unmoved_of_served lawful h hr hserved
  | error e s' => trivial

end Served

end Demand
