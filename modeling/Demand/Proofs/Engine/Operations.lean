import Demand.Proofs.Engine.Tables
import Demand.Script.Request
import Mathlib.Data.Finmap

/-!
# Operations on tables, one after the other

Operations that are carried out one after the other on empty tables give what they would give on one
finite map from requests to values, as long as no two kinds in use share a number
(`answers_eq_mapAnswers`). What an operation does to the tables is a step of the simulation
`Represents`.

Where kinds share a number, the table belongs to the kind that is first given a value under it
(`owner?_after`), whatever is done later, and all that others ask of it is refused. A value comes
from where it was stored for the same request (`exists_insert_of_value?`).
-/

namespace Demand

variable {F : Family} {V : F.Request → Type}

/-! ## Entries without a request twice -/

namespace Entries

variable {r : F.Request} {es : List ((r : F.Request) × V r)}

theorem isSome_find?_iff : (find? r es).isSome ↔ r ∈ es.map Sigma.fst := by
  induction es with
  | nil => simp [find?]
  | cons e rest ih =>
    obtain ⟨q, v⟩ := e
    by_cases hq : q = r
    · subst hq
      simp [find?]
    · simp [find?, hq, ih, Ne.symm hq]

theorem map_fst_erase : (erase r es).map Sigma.fst = (es.map Sigma.fst).filter (· != r) := by
  rw [erase, List.filter_map]
  refine congrArg _ (List.filter_congr fun e _ => ?_)
  rw [Bool.eq_iff_iff]
  simp

theorem nodup_erase (h : (es.map Sigma.fst).Nodup) : ((erase r es).map Sigma.fst).Nodup := by
  rw [map_fst_erase]
  exact h.filter _

theorem nodup_put (h : (es.map Sigma.fst).Nodup) (v : V r) :
    ((put r v es).map Sigma.fst).Nodup := by
  refine List.nodup_cons.2 ⟨?_, nodup_erase h⟩
  rw [map_fst_erase]
  simp

theorem length_put (v : V r) (h : find? r es = none) : (put r v es).length = es.length + 1 := by
  have hnot : r ∉ es.map Sigma.fst := by
    rw [← isSome_find?_iff, h]
    simp
  have herase : erase r es = es :=
    List.filter_eq_self.2 fun e he =>
      decide_eq_true fun heq => hnot (heq ▸ List.mem_map_of_mem he)
  rw [put, herase, List.length_cons]

theorem length_erase {v : V r} (hes : (es.map Sigma.fst).Nodup) (h : find? r es = some v) :
    (erase r es).length + 1 = es.length := by
  have hmem : r ∈ es.map Sigma.fst := by
    rw [← isSome_find?_iff, h]
    rfl
  have hkeys := List.length_erase_add_one hmem
  rwa [hes.erase_eq_filter, ← map_fst_erase, List.length_map, List.length_map] at hkeys

end Entries

namespace Tables

/-! ## Steps -/

/-- The request that an operation is about. -/
def Operation.request? : Operation F V → Option F.Request
  | insert r _ | get r | contains r | erase r => some r
  | clear => none

/-- What an operation gives, or why it is refused. -/
def reading (t : Tables F V) (o : Operation F V) : Except (Fault F) (Reading F V) :=
  (t.apply o).map Prod.fst

/-- The tables after an operation. One that is refused leaves them as they are. -/
def step (t : Tables F V) (o : Operation F V) : Tables F V :=
  match t.apply o with
  | .ok (_, t') => t'
  | .error _ => t

def after (t : Tables F V) (os : List (Operation F V)) : Tables F V :=
  os.foldl step t

/-- What operations give one after the other, with the number of values after each. -/
def answers (t : Tables F V) :
    List (Operation F V) → List (Except (Fault F) (Reading F V) × Nat)
  | [] => []
  | o :: os => (t.reading o, (t.step o).size) :: answers (t.step o) os

/-- All that an operation can do: what it gives, and the tables after it. -/
inductive Outcome (t : Tables F V) :
    Operation F V → Except (Fault F) (Reading F V) → Tables F V → Prop
  /-- The table belongs to another kind. -/
  | refused {o : Operation F V} {r : F.Request} {f : Fault F} : o.request? = some r →
      t.entriesOf (F.kind r) = .error f → Outcome t o (.error f) t
  | insert {r : F.Request} {v : V r} {es : List ((r : F.Request) × V r)} :
      t.entriesOf (F.kind r) = .ok es → Entries.find? r es = none →
      Outcome t (.insert r v) (.ok .done) (t.setEntries (F.kind r) (Entries.put r v es))
  /-- There is a value already. -/
  | present {r : F.Request} {v w : V r} {es : List ((r : F.Request) × V r)} :
      t.entriesOf (F.kind r) = .ok es → Entries.find? r es = some w →
      Outcome t (.insert r v) (.error (.alreadyCached r)) t
  | get {r : F.Request} {es : List ((r : F.Request) × V r)} :
      t.entriesOf (F.kind r) = .ok es →
      Outcome t (.get r) (.ok (.value r (Entries.find? r es))) t
  | contains {r : F.Request} {es : List ((r : F.Request) × V r)} :
      t.entriesOf (F.kind r) = .ok es →
      Outcome t (.contains r) (.ok (.flag (Entries.find? r es).isSome)) t
  | erase {r : F.Request} {w : V r} {es : List ((r : F.Request) × V r)} :
      t.entriesOf (F.kind r) = .ok es → Entries.find? r es = some w →
      Outcome t (.erase r) (.ok (.flag true)) (t.setEntries (F.kind r) (Entries.erase r es))
  /-- There is no value to drop. -/
  | absent {r : F.Request} {es : List ((r : F.Request) × V r)} :
      t.entriesOf (F.kind r) = .ok es → Entries.find? r es = none →
      Outcome t (.erase r) (.ok (.flag false)) t
  | clear : Outcome t .clear (.ok .done) t.clear

theorem outcome (t : Tables F V) (o : Operation F V) : Outcome t o (t.reading o) (t.step o) := by
  unfold reading step
  cases o with
  | insert r v =>
    rw [apply, insert]
    cases h : t.entriesOf (F.kind r) with
    | error f => exact .refused rfl h
    | ok es =>
      simp only [bind, Except.bind]
      cases hr : Entries.find? r es with
      | none => exact .insert h hr
      | some w => exact .present h hr
  | get r =>
    rw [apply, get?]
    cases h : t.entriesOf (F.kind r) with
    | error f => exact .refused rfl h
    | ok es => exact .get h
  | contains r =>
    rw [apply, get?]
    cases h : t.entriesOf (F.kind r) with
    | error f => exact .refused rfl h
    | ok es => exact .contains h
  | erase r =>
    rw [apply, erase]
    cases h : t.entriesOf (F.kind r) with
    | error f => exact .refused rfl h
    | ok es =>
      simp only [bind, Except.bind]
      cases hr : Entries.find? r es with
      | none => exact .absent h hr
      | some w => exact .erase h hr
  | clear => exact .clear

/-! ## One map -/

section Map

variable {t : Tables F V} {r : F.Request} {m : Finmap V}

/-- What an operation gives on a map, and the map after it. -/
def Operation.onMap (m : Finmap V) :
    Operation F V → Except (Fault F) (Reading F V) × Finmap V
  | insert r v =>
    match m.lookup r with
    | some _ => (.error (.alreadyCached r), m)
    | none => (.ok .done, m.insert r v)
  | get r => (.ok (.value r (m.lookup r)), m)
  | contains r => (.ok (.flag (m.lookup r).isSome), m)
  | erase r => (.ok (.flag (m.lookup r).isSome), m.erase r)
  | clear => (.ok .done, ∅)

/-- What operations on a map give one after the other, with the number of its keys after each. -/
def mapAnswers (m : Finmap V) :
    List (Operation F V) → List (Except (Fault F) (Reading F V) × Nat)
  | [] => []
  | o :: os => ((o.onMap m).1, (o.onMap m).2.keys.card) :: mapAnswers (o.onMap m).2 os

theorem card_insert (h : m.lookup r = none) (v : V r) :
    (m.insert r v).keys.card = m.keys.card + 1 := by
  have hkeys : (m.insert r v).keys = Insert.insert r m.keys := by
    ext q
    simp [Finmap.mem_keys]
  have hnot : r ∉ m.keys := by
    rwa [Finmap.mem_keys, ← Finmap.lookup_eq_none]
  rw [hkeys, Finset.card_insert_of_notMem hnot]

theorem card_erase {v : V r} (h : m.lookup r = some v) :
    (m.erase r).keys.card + 1 = m.keys.card := by
  have hmem : r ∈ m.keys := by
    rw [Finmap.mem_keys, ← Finmap.lookup_isSome, h]
    rfl
  rw [Finmap.keys_erase, Finset.card_erase_add_one hmem]

theorem erase_of_lookup_none (h : m.lookup r = none) : m.erase r = m := by
  refine Finmap.ext_lookup fun q => ?_
  by_cases hq : q = r
  · rw [hq, Finmap.lookup_erase, h]
  · rw [Finmap.lookup_erase_ne hq]

/-- Tables of some kinds hold what a map holds. -/
structure Represents (known : F.Kind → Prop) (t : Tables F V) (m : Finmap V) : Prop where
  owned : t.Owned known
  distinct : ∀ k, ((t.entries k).map Sigma.fst).Nodup
  values : ∀ r, t.value? r = m.lookup r
  size : t.size = m.keys.card

variable {known : F.Kind → Prop}

theorem represents_empty : Represents known ({} : Tables F V) ∅ where
  owned := owned_empty
  distinct _ := List.nodup_nil
  values _ := rfl
  size := rfl

/-- Other entries of a kind, without a request twice. -/
theorem Represents.setEntries (h : Represents known t m) (hk : known (F.kind r))
    {es es' : List ((r : F.Request) × V r)} (hes : t.entriesOf (F.kind r) = .ok es)
    (hes' : (es'.map Sigma.fst).Nodup) {m' : Finmap V}
    (hvalues : ∀ q, (t.setEntries (F.kind r) es').value? q = m'.lookup q)
    (hsize : m'.keys.card + es.length = m.keys.card + es'.length) :
    Represents known (t.setEntries (F.kind r) es') m' where
  owned := owned_setEntries h.owned hk es'
  distinct k := by
    rw [entries_setEntries hes]
    split
    · exact hes'
    · exact h.distinct k
  values := hvalues
  size := by
    have hnew := size_setEntries hes es'
    have hold := h.size
    omega

theorem Represents.clear (h : Represents known t m) : Represents known t.clear ∅ where
  owned := owned_clear h.owned
  distinct k := by
    rw [entries_clear]
    exact List.nodup_nil
  values q := value?_clear t q
  size := size_clear t

/-- An operation through a kind that shares its number with no other gives what it gives on the
map. -/
theorem Represents.step (h : Represents known t m)
    (inj : ∀ k k', known k → known k' → F.typeId k = F.typeId k' → k = k') (o : Operation F V)
    (ho : ∀ r ∈ o.request?, known (F.kind r)) :
    t.reading o = (o.onMap m).1 ∧ Represents known (t.step o) (o.onMap m).2 := by
  have hlookup : ∀ {r es}, t.entriesOf (F.kind r) = .ok es → m.lookup r = Entries.find? r es :=
    fun hes => by rw [← h.values, value?, entries_eq hes]
  have hdistinct : ∀ {k es}, t.entriesOf k = .ok es → (es.map Sigma.fst).Nodup :=
    fun hes => entries_eq hes ▸ h.distinct _
  have hout := t.outcome o
  generalize t.reading o = a, t.step o = t' at hout ⊢
  cases hout with
  | @refused o r f hr hes =>
    rw [entriesOf_eq h.owned inj (ho r hr)] at hes
    cases hes
  | @insert r v es hes hr =>
    have hmr := (hlookup hes).trans hr
    rw [Operation.onMap, hmr]
    refine ⟨rfl, h.setEntries (ho r rfl) hes (Entries.nodup_put (hdistinct hes) v) (fun q => ?_) ?_⟩
    · by_cases hq : q = r
      · subst hq
        rw [value?_setEntries_self hes, Entries.find?_put_self, Finmap.lookup_insert]
      · rw [value?_setEntries hes (fun hne => Entries.find?_put_of_ne hne v es) hq, h.values,
          Finmap.lookup_insert_of_ne _ hq]
    · rw [card_insert hmr v, Entries.length_put v hr]
      omega
  | @present r v w es hes hr =>
    rw [Operation.onMap, (hlookup hes).trans hr]
    exact ⟨rfl, h⟩
  | @get r es hes =>
    rw [Operation.onMap, hlookup hes]
    exact ⟨rfl, h⟩
  | @contains r es hes =>
    rw [Operation.onMap, hlookup hes]
    exact ⟨rfl, h⟩
  | @erase r w es hes hr =>
    have hmr := (hlookup hes).trans hr
    rw [Operation.onMap, hmr]
    refine ⟨rfl, h.setEntries (ho r rfl) hes (Entries.nodup_erase (hdistinct hes)) (fun q => ?_) ?_⟩
    · by_cases hq : q = r
      · subst hq
        rw [value?_setEntries_self hes, Entries.find?_erase, if_pos rfl, Finmap.lookup_erase]
      · rw [value?_setEntries hes (fun hne => by rw [Entries.find?_erase, if_neg hne]) hq, h.values,
          Finmap.lookup_erase_ne hq]
    · have hcard : (m.erase r).keys.card + 1 = m.keys.card := card_erase hmr
      have hlen := Entries.length_erase (hdistinct hes) hr
      show (m.erase r).keys.card + es.length = m.keys.card + (Entries.erase r es).length
      omega
  | @absent r es hes hr =>
    have hmr := (hlookup hes).trans hr
    rw [Operation.onMap, hmr, erase_of_lookup_none hmr]
    exact ⟨rfl, h⟩
  | clear => exact ⟨rfl, h.clear⟩

/-- No two kinds that the operations use share a number. -/
def Unshared (os : List (Operation F V)) : Prop :=
  ∀ o ∈ os, ∀ o' ∈ os, ∀ r ∈ o.request?, ∀ q ∈ o'.request?,
    F.typeId (F.kind r) = F.typeId (F.kind q) → F.kind r = F.kind q

theorem Represents.answers_eq (h : Represents known t m)
    (inj : ∀ k k', known k → known k' → F.typeId k = F.typeId k' → k = k')
    {os : List (Operation F V)} (hos : ∀ o ∈ os, ∀ r ∈ o.request?, known (F.kind r)) :
    t.answers os = mapAnswers m os := by
  induction os generalizing t m with
  | nil => rfl
  | cons o os ih =>
    obtain ⟨hreading, hstep⟩ := h.step inj o (hos o List.mem_cons_self)
    rw [answers, mapAnswers, hreading, hstep.size,
      ih hstep fun o' ho' => hos o' (List.mem_cons_of_mem o ho')]

/-- The tables are one map, as long as no two kinds in use share a number. -/
theorem answers_eq_mapAnswers {os : List (Operation F V)} (h : Unshared os) :
    ({} : Tables F V).answers os = mapAnswers ∅ os := by
  let known : F.Kind → Prop := fun k => ∃ o ∈ os, ∃ r ∈ o.request?, F.kind r = k
  refine (@represents_empty F V known).answers_eq ?_ fun o ho r hr => ⟨o, ho, r, hr, rfl⟩
  rintro k k' ⟨o, ho, r, hr, rfl⟩ ⟨o', ho', q, hq, rfl⟩ hid
  exact h o ho o' ho' r hr q hq hid

end Map

/-! ## Operations of one kind -/

/-- Whether an operation can change what requests of a kind see or give. -/
def Operation.concerns (k : F.Kind) (o : Operation F V) : Bool :=
  o.request?.all fun r => F.kind r = k

/-- What those operations give that concern a kind. -/
def seenBy (k : F.Kind) (os : List (Operation F V))
    (as : List (Except (Fault F) (Reading F V) × Nat)) : List (Except (Fault F) (Reading F V)) :=
  ((os.zip as).filter fun x => x.1.concerns k).map fun x => x.2.1

section Concerns

variable {k : F.Kind} {m m' : Finmap V} {o : Operation F V}

theorem concerns_iff : o.concerns k ↔ ∀ r ∈ o.request?, F.kind r = k := by
  simp [Operation.concerns, Option.all_eq_true]

/-- An operation gives the same on maps that hold the same for its kind, and leaves such maps. -/
theorem onMap_agree (h : ∀ r, F.kind r = k → m.lookup r = m'.lookup r) (ho : o.concerns k) :
    (o.onMap m).1 = (o.onMap m').1 ∧
      ∀ r, F.kind r = k → (o.onMap m).2.lookup r = (o.onMap m').2.lookup r := by
  have hkind := concerns_iff.1 ho
  cases o with
  | insert r v =>
    rw [Operation.onMap, Operation.onMap, h r (hkind r rfl)]
    cases m'.lookup r with
    | some w => exact ⟨rfl, h⟩
    | none =>
      refine ⟨rfl, fun q hq => ?_⟩
      by_cases hqr : q = r
      · subst hqr
        rw [Finmap.lookup_insert, Finmap.lookup_insert]
      · rw [Finmap.lookup_insert_of_ne _ hqr, Finmap.lookup_insert_of_ne _ hqr, h q hq]
  | get r =>
    rw [Operation.onMap, Operation.onMap, h r (hkind r rfl)]
    exact ⟨rfl, h⟩
  | contains r =>
    rw [Operation.onMap, Operation.onMap, h r (hkind r rfl)]
    exact ⟨rfl, h⟩
  | erase r =>
    rw [Operation.onMap, Operation.onMap, h r (hkind r rfl)]
    refine ⟨rfl, fun q hq => ?_⟩
    by_cases hqr : q = r
    · subst hqr
      rw [Finmap.lookup_erase, Finmap.lookup_erase]
    · rw [Finmap.lookup_erase_ne hqr, Finmap.lookup_erase_ne hqr, h q hq]
  | clear => exact ⟨rfl, fun _ _ => rfl⟩

/-- An operation of another kind leaves what the map holds for the kind. -/
theorem onMap_other (ho : ¬ o.concerns k) {r : F.Request} (hr : F.kind r = k) :
    (o.onMap m).2.lookup r = m.lookup r := by
  have hne : ∀ q ∈ o.request?, r ≠ q := by
    rintro q hq rfl
    exact ho (concerns_iff.2 fun q' hq' => Option.some.inj (hq.symm.trans hq') ▸ hr)
  cases o with
  | insert q v =>
    rw [Operation.onMap]
    cases m.lookup q with
    | some w => rfl
    | none => exact Finmap.lookup_insert_of_ne m (hne q rfl)
  | get q => rfl
  | contains q => rfl
  | erase q => exact Finmap.lookup_erase_ne (hne q rfl)
  | clear => exact absurd rfl ho

theorem seenBy_cons (o : Operation F V) (os : List (Operation F V))
    (a : Except (Fault F) (Reading F V) × Nat) (as : List (Except (Fault F) (Reading F V) × Nat)) :
    seenBy k (o :: os) (a :: as) =
      if o.concerns k then a.1 :: seenBy k os as else seenBy k os as := by
  unfold seenBy
  rw [List.zip_cons_cons, List.filter_cons]
  split <;> rfl

/-- What operations give that concern a kind, they give without the others. -/
theorem seenBy_mapAnswers (h : ∀ r, F.kind r = k → m.lookup r = m'.lookup r)
    (os : List (Operation F V)) :
    seenBy k os (mapAnswers m os) = (mapAnswers m' (os.filter (·.concerns k))).map Prod.fst := by
  induction os generalizing m m' with
  | nil => rfl
  | cons o os ih =>
    rw [mapAnswers, seenBy_cons]
    by_cases ho : o.concerns k
    · obtain ⟨hreading, hagree⟩ := onMap_agree h ho
      rw [if_pos ho, List.filter_cons_of_pos ho, mapAnswers, List.map_cons, hreading, ih hagree]
    · rw [if_neg ho, List.filter_cons_of_neg ho, ih fun r hr => (onMap_other ho hr).trans (h r hr)]

theorem Unshared.filter {os : List (Operation F V)} (h : Unshared os) (p : Operation F V → Bool) :
    Unshared (os.filter p) :=
  fun o ho o' ho' => h o (List.mem_of_mem_filter ho) o' (List.mem_of_mem_filter ho')

/-- Requests of one kind are told nothing of the others. -/
theorem seenBy_answers {os : List (Operation F V)} (h : Unshared os) (k : F.Kind) :
    seenBy k os (({} : Tables F V).answers os) =
      (({} : Tables F V).answers (os.filter (·.concerns k))).map Prod.fst := by
  rw [answers_eq_mapAnswers h, answers_eq_mapAnswers (h.filter _),
    seenBy_mapAnswers fun _ _ => rfl]

end Concerns

/-! ## Shared numbers -/

/-- The kind that a table belongs to. -/
def owner? (t : Tables F V) (id : TypeId) : Option F.Kind :=
  (t.shard? id).map Shard.owner

/-- The kind that an operation gives a value under a number. -/
def Operation.gives? (id : TypeId) : Operation F V → Option F.Kind
  | insert r _ => if F.typeId (F.kind r) = id then some (F.kind r) else none
  | get _ | contains _ | erase _ | clear => none

/-- The kind that is first given a value under a number. -/
def firstKind? (os : List (Operation F V)) (id : TypeId) : Option F.Kind :=
  os.findSome? fun o => o.gives? id

section Shared

variable {t : Tables F V} {k : F.Kind} {es : List ((r : F.Request) × V r)}

theorem entriesOf_eq_error_iff :
    t.entriesOf k = .error (.sharedTypeId k) ↔ ∃ j, t.owner? (F.typeId k) = some j ∧ j ≠ k := by
  unfold entriesOf owner?
  cases t.shard? (F.typeId k) with
  | none => simp
  | some s => by_cases h : s.owner = k <;> simp [h]

/-- A table that is not made, or that the kind may use. -/
theorem owner?_of_ok (h : t.entriesOf k = .ok es) :
    t.owner? (F.typeId k) = none ∨ t.owner? (F.typeId k) = some k := by
  unfold entriesOf at h
  unfold owner?
  cases hs : t.shard? (F.typeId k) with
  | none => exact .inl rfl
  | some s =>
    rw [hs] at h
    by_cases ho : s.owner = k
    · exact .inr (congrArg some ho)
    · simp [ho] at h

theorem owner?_setEntries (id : TypeId) :
    (t.setEntries k es).owner? id = if id = F.typeId k then some k else t.owner? id := by
  unfold owner?
  rw [shard?_setEntries]
  split <;> rfl

theorem owner?_clear (id : TypeId) : t.clear.owner? id = t.owner? id := by
  unfold owner?
  rw [shard?_clear, Option.map_map]
  rfl

theorem owner?_of_find? {r : F.Request} {w : V r} (h : t.entriesOf (F.kind r) = .ok es)
    (hr : Entries.find? r es = some w) : t.owner? (F.typeId (F.kind r)) = some (F.kind r) := by
  rcases owner?_of_ok h with hnone | hsome
  · rw [entriesOf, Option.map_eq_none_iff.1 hnone] at h
    cases h
    cases hr
  · exact hsome

/-- Where there is a table already, an operation gives none. -/
theorem owner?_or_gives? {o : Operation F V}
    (h : ∀ r ∈ o.request?, (t.owner? (F.typeId (F.kind r))).isSome) (id : TypeId) :
    (t.owner? id).or (o.gives? id) = t.owner? id := by
  cases o with
  | insert r v =>
    rw [Operation.gives?]
    by_cases hid : F.typeId (F.kind r) = id
    · obtain ⟨k, hk⟩ := Option.isSome_iff_exists.1 (h r rfl)
      rw [← hid, hk, Option.some_or]
    · rw [if_neg hid, Option.or_none]
  | get r => exact Option.or_none
  | contains r => exact Option.or_none
  | erase r => exact Option.or_none
  | clear => exact Option.or_none

/-- A table that is made stays with its kind, and storing a value is the only way to make one. -/
theorem owner?_step (t : Tables F V) (o : Operation F V) (id : TypeId) :
    (t.step o).owner? id = (t.owner? id).or (o.gives? id) := by
  have hout := t.outcome o
  generalize t.reading o = a, t.step o = t' at hout
  cases hout with
  | @refused o r f hr hes =>
    obtain rfl := entriesOf_error hes
    obtain ⟨k, hk, -⟩ := entriesOf_eq_error_iff.1 hes
    refine (owner?_or_gives? (fun q hq => ?_) id).symm
    rw [← Option.some.inj (hr.symm.trans hq), hk]
    rfl
  | @insert r v es hes hr =>
    rw [owner?_setEntries, Operation.gives?]
    by_cases hid : id = F.typeId (F.kind r)
    · rw [if_pos hid, if_pos hid.symm, hid]
      rcases owner?_of_ok hes with hnone | hsome
      · rw [hnone, Option.none_or]
      · rw [hsome, Option.some_or]
    · rw [if_neg hid, if_neg (Ne.symm hid), Option.or_none]
  | @present r v w es hes hr =>
    refine (owner?_or_gives? (fun q hq => ?_) id).symm
    rw [← Option.some.inj hq, owner?_of_find? hes hr]
    rfl
  | get hes => exact Option.or_none.symm
  | contains hes => exact Option.or_none.symm
  | @erase r w es hes hr =>
    rw [owner?_setEntries, Operation.gives?, Option.or_none]
    by_cases hid : id = F.typeId (F.kind r)
    · rw [if_pos hid, hid, owner?_of_find? hes hr]
    · rw [if_neg hid]
  | absent hes hr => exact Option.or_none.symm
  | clear => exact (owner?_clear id).trans Option.or_none.symm

theorem firstKind?_cons (o : Operation F V) (os : List (Operation F V)) (id : TypeId) :
    firstKind? (o :: os) id = (o.gives? id).or (firstKind? os id) := by
  rw [firstKind?, List.findSome?_cons]
  cases o.gives? id <;> rfl

/-- A table belongs to the kind that was first given a value under its number. -/
theorem owner?_after (t : Tables F V) (os : List (Operation F V)) (id : TypeId) :
    (t.after os).owner? id = (t.owner? id).or (firstKind? os id) := by
  induction os generalizing t with
  | nil => exact Option.or_none.symm
  | cons o os ih =>
    calc ((t.step o).after os).owner? id
      _ = ((t.step o).owner? id).or (firstKind? os id) := ih (t.step o)
      _ = (t.owner? id).or (firstKind? (o :: os) id) := by
        rw [owner?_step, firstKind?_cons, Option.or_assoc]

/-- An operation is refused for its number just if the table belongs to another kind. -/
theorem reading_eq_shared_iff {o : Operation F V} {r : F.Request} (ho : o.request? = some r) :
    t.reading o = .error (.sharedTypeId (F.kind r)) ↔
      ∃ k, t.owner? (F.typeId (F.kind r)) = some k ∧ k ≠ F.kind r := by
  rw [← entriesOf_eq_error_iff]
  constructor
  · intro h
    have hout := t.outcome o
    rw [h] at hout
    generalize t.step o = t' at hout
    cases hout with
    | refused hr hes =>
      obtain rfl := Option.some.inj (hr.symm.trans ho)
      exact hes
  · intro h
    unfold reading
    cases o with
    | insert q v =>
      obtain rfl := Option.some.inj ho
      rw [apply, insert, h]
      rfl
    | get q =>
      obtain rfl := Option.some.inj ho
      rw [apply, get?, h]
      rfl
    | contains q =>
      obtain rfl := Option.some.inj ho
      rw [apply, get?, h]
      rfl
    | erase q =>
      obtain rfl := Option.some.inj ho
      rw [apply, erase, h]
      rfl
    | clear => cases ho

end Shared

/-! ## Where values come from -/

/-- A value that is there after an operation was there before it, or the operation stores it. -/
theorem value?_of_step {t : Tables F V} {o : Operation F V} {r : F.Request} {v : V r}
    (h : (t.step o).value? r = some v) :
    (o = .insert r v ∧ t.reading o = .ok .done) ∨
      (t.value? r = some v ∧ o ≠ .erase r ∧ o ≠ .clear) := by
  have hout := t.outcome o
  generalize t.reading o = a, t.step o = t' at hout h ⊢
  cases hout with
  | @refused o q f hq hes =>
    refine .inr ⟨h, ?_, ?_⟩
    · rintro rfl
      obtain rfl := Option.some.inj hq
      rw [value?, entries, hes] at h
      cases h
    · rintro rfl
      cases hq
  | @insert q w es hes hq =>
    by_cases hrq : r = q
    · subst hrq
      rw [value?_setEntries_self hes, Entries.find?_put_self] at h
      cases h
      exact .inl ⟨rfl, rfl⟩
    · rw [value?_setEntries hes (fun hne => Entries.find?_put_of_ne hne w es) hrq] at h
      exact .inr ⟨h, by rintro ⟨⟩, by rintro ⟨⟩⟩
  | present hes hq => exact .inr ⟨h, by rintro ⟨⟩, by rintro ⟨⟩⟩
  | get hes => exact .inr ⟨h, by rintro ⟨⟩, by rintro ⟨⟩⟩
  | contains hes => exact .inr ⟨h, by rintro ⟨⟩, by rintro ⟨⟩⟩
  | @erase q w es hes hq =>
    by_cases hrq : r = q
    · subst hrq
      rw [value?_setEntries_self hes, Entries.find?_erase, if_pos rfl] at h
      cases h
    · rw [value?_setEntries hes (fun hne => by rw [Entries.find?_erase, if_neg hne]) hrq] at h
      refine .inr ⟨h, ?_, by rintro ⟨⟩⟩
      rintro ⟨⟩
      exact hrq rfl
  | @absent q es hes hq =>
    refine .inr ⟨h, ?_, by rintro ⟨⟩⟩
    rintro ⟨⟩
    rw [value?, entries_eq hes, hq] at h
    cases h
  | clear =>
    rw [value?_clear] at h
    cases h

/-- A value was stored for its request, and neither dropped nor cleared since. -/
theorem exists_insert_of_value? {os : List (Operation F V)} {r : F.Request} {v : V r}
    (h : (({} : Tables F V).after os).value? r = some v) :
    ∃ as bs, os = as ++ .insert r v :: bs ∧ (∀ o ∈ bs, o ≠ .erase r ∧ o ≠ .clear) ∧
      (({} : Tables F V).after as).reading (.insert r v) = .ok .done := by
  -- the last operation first: it stored the value, or left it
  induction os using List.reverseRecOn with
  | nil => cases h
  | append_singleton os o ih =>
    rw [after, List.foldl_append] at h
    rcases value?_of_step h with ⟨rfl, hdone⟩ | ⟨hbefore, hkeeps⟩
    · exact ⟨os, [], rfl, by simp, hdone⟩
    · obtain ⟨as, bs, rfl, hbs, hdone⟩ := ih hbefore
      refine ⟨as, bs ++ [o], by simp, fun o' ho' => ?_, hdone⟩
      rcases List.mem_append.1 ho' with ho' | ho'
      · exact hbs o' ho'
      · exact List.mem_singleton.1 ho' ▸ hkeeps

theorem value?_of_reading {t : Tables F V} {r : F.Request} {v : V r}
    (h : t.reading (.get r) = .ok (.value r (some v))) : t.value? r = some v := by
  have hout := t.outcome (.get r)
  generalize ha : t.reading (.get r) = a, t.step (.get r) = t' at hout
  cases hout with
  | refused hr hes =>
    rw [h] at ha
    cases ha
  | get hes =>
    rw [h] at ha
    rw [value?, entries_eq hes, ← eq_of_heq (Reading.value.inj (Except.ok.inj ha)).2]

/-- Operations on empty tables give what they give on one map from requests to values, and those of
one kind what they give without those of others, as long as no two kinds in use share a number. With
kinds that do, an operation is refused for its number just if the first value under it was given to
another kind; and a value that is found was stored for the same request, and not dropped since. -/
theorem tables_are_one_map (os : List (Operation F V)) :
    (Unshared os →
      ({} : Tables F V).answers os = mapAnswers ∅ os ∧
        ∀ k, seenBy k os (({} : Tables F V).answers os) =
          (({} : Tables F V).answers (os.filter (·.concerns k))).map Prod.fst) ∧
    (∀ (o : Operation F V) (r : F.Request), o.request? = some r →
      ((({} : Tables F V).after os).reading o = .error (.sharedTypeId (F.kind r)) ↔
        ∃ k, firstKind? os (F.typeId (F.kind r)) = some k ∧ k ≠ F.kind r)) ∧
    ∀ (r : F.Request) (v : V r),
      (({} : Tables F V).after os).reading (.get r) = .ok (.value r (some v)) →
      ∃ as bs, os = as ++ .insert r v :: bs ∧ (∀ o ∈ bs, o ≠ .erase r ∧ o ≠ .clear) ∧
        (({} : Tables F V).after as).reading (.insert r v) = .ok .done := by
  refine ⟨fun h => ⟨answers_eq_mapAnswers h, seenBy_answers h⟩, fun o r ho => ?_, fun r v h => ?_⟩
  · rw [reading_eq_shared_iff ho, owner?_after]
    rfl
  · exact exists_insert_of_value? (value?_of_reading h)

/-- Values for kinds of three zones, the last zone first, one of them stored twice. -/
def scatteredOperations : List (Operation Script.family Script.family.Output) :=
  [.insert (.keyed .iface "a") 1, .get (.keyed .early "a"), .insert (.keyed .early "a") 2,
    .insert (.keyed .cached "a") 3, .insert (.keyed .cached "a") 4, .erase (.keyed .iface "a"),
    .contains (.keyed .iface "a"), .clear, .get (.keyed .cached "a")]

/-- A value, and all values dropped. -/
def clearedOperations : List (Operation Script.family Script.family.Output) :=
  [.insert (.keyed .cached "a") 3, .clear]

/-- The operations of three zones do not get in each other's way. A kind that claims the number of
another is refused also when all values are dropped. -/
theorem tables_are_one_map_scattered :
    Unshared scatteredOperations ∧
    ({} : Tables Script.family Script.family.Output).answers scatteredOperations =
      mapAnswers ∅ scatteredOperations ∧
    (({} : Tables Script.family Script.family.Output).after clearedOperations).reading
      (.get (.keyed .impostor "a")) = .error (.sharedTypeId (.keyed .impostor)) ∧
    (({} : Tables Script.family Script.family.Output).after (scatteredOperations.take 4)).reading
      (.get (.keyed .early "a")) = .ok (.value (.keyed .early "a") (some 2)) ∧
    ∃ as bs, scatteredOperations.take 4 = as ++ .insert (.keyed .early "a") 2 :: bs := by
  have hunshared : Unshared scatteredOperations := by
    unfold Unshared
    decide
  have hget : (({} : Tables Script.family Script.family.Output).after
      (scatteredOperations.take 4)).reading (.get (.keyed .early "a")) =
        .ok (.value (.keyed .early "a") (some 2)) := by
    rfl
  obtain ⟨as, bs, hos, -, -⟩ :=
    (tables_are_one_map (scatteredOperations.take 4)).2.2 (.keyed .early "a") 2 hget
  exact ⟨hunshared, ((tables_are_one_map scatteredOperations).1 hunshared).1,
    ((tables_are_one_map clearedOperations).2.1 (.get (.keyed .impostor "a")) _ rfl).2
      ⟨.keyed .cached, by decide, by decide⟩, hget, as, bs, hos⟩

end Tables

end Demand
