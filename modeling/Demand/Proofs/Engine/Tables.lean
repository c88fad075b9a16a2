import Demand.Engine.Registry
import Demand.Engine.Tables
import Mathlib.Data.List.GetD

/-!
# Tables as one map

An operation on the tables that is not refused does to `value?` what it would do to a single map
from requests to values (`put_values`, `insert_values`, `erase_values`, `value?_clear`). It is never
refused while every table belongs to a kind of a set in which no two kinds share a number
(`Owned`, `get?_eq`, `put_owned`, `insert_owned`, `erase_owned`). The kinds a registry knows are
such a set (`Registry.knows_injective`). It is refused because of the number alone, unless a value
is stored that is there (`insert_error`).
-/

namespace Demand

theorem Entries.mem_of_find? {F : Family} {V : F.Request → Type} {r : F.Request} {v : V r}
    {entries : List ((r : F.Request) × V r)} (h : Entries.find? r entries = some v) :
    ⟨r, v⟩ ∈ entries := by
  induction entries with
  | nil => cases h
  | cons e rest ih =>
    obtain ⟨q, w⟩ := e
    rw [find?] at h
    by_cases hq : q = r
    · subst hq
      rw [dif_pos rfl] at h
      cases h
      exact List.mem_cons_self
    · rw [dif_neg hq] at h
      exact List.mem_cons_of_mem _ (ih h)

namespace Row

variable {α : Type} (filler : α)

/-- Making a row longer shows at no other place. -/
theorem getD_set (row : List α) (i : Nat) (a : α) (j : Nat) :
    (set filler row i a).getD j filler = if j = i then a else row.getD j filler := by
  induction row generalizing i j with
  | nil =>
    induction i generalizing j with
    | zero => cases j <;> simp [set]
    | succ i ih =>
      cases j with
      | zero => simp [set]
      | succ j => simpa [set] using ih j
  | cons b row ih =>
    cases i with
    | zero => cases j <;> simp [set]
    | succ i =>
      cases j with
      | zero => simp [set]
      | succ j => simpa [set] using ih i j

theorem set_set (row : List α) (i : Nat) (a b : α) :
    set filler (set filler row i a) i b = set filler row i b := by
  induction row generalizing i with
  | nil =>
    induction i with
    | zero => rfl
    | succ i ih => exact congrArg (filler :: ·) ih
  | cons c row ih =>
    cases i with
    | zero => rfl
    | succ i => exact congrArg (c :: ·) (ih i)

theorem total_set {f : α → Nat} (hf : f filler = 0) (row : List α) (i : Nat) (a : α) :
    total f (set filler row i a) + f (row.getD i filler) = total f row + f a := by
  induction row generalizing i with
  | nil =>
    induction i with
    | zero => simp [set, total, hf]
    | succ i ih => simpa [set, total, hf] using ih
  | cons b row ih =>
    cases i with
    | zero =>
      simp only [set, total, List.foldr_cons, List.getD_cons_zero]
      omega
    | succ i =>
      have hrow := ih i
      simp only [set, total, List.foldr_cons, List.getD_cons_succ] at hrow ⊢
      omega

theorem total_eq_zero {f : α → Nat} {row : List α} (h : ∀ a ∈ row, f a = 0) : total f row = 0 := by
  induction row with
  | nil => rfl
  | cons a row ih =>
    rw [total, List.foldr_cons, h a List.mem_cons_self, Nat.zero_add]
    exact ih fun b hb => h b (List.mem_cons_of_mem a hb)

end Row

theorem Zone.index_injective {z z' : Zone} (h : z.index = z'.index) : z = z' := by
  have hz := all_index z
  rw [h, all_index] at hz
  exact (Option.some.inj hz).symm

namespace Tables

variable {F : Family} {V : F.Request → Type}

/-- The value of a request, none also where its number belongs to another kind. -/
def value? (t : Tables F V) (r : F.Request) : Option (V r) :=
  Entries.find? r (t.entries (F.kind r))

/-- Every table belongs to one of these kinds and lies under its number. -/
def Owned (t : Tables F V) (known : F.Kind → Prop) : Prop :=
  ∀ id s, t.shard? id = some s → F.typeId s.owner = id ∧ known s.owner

/-! ## One table -/

theorem row_setEntries (t : Tables F V) (k : F.Kind) (es : List ((r : F.Request) × V r)) (z : Zone) :
    (t.setEntries k es).row z =
      if z = (F.typeId k).zone then
        Row.set none (t.row z) (F.typeId k).number.toNat (some ⟨k, es⟩)
      else t.row z := by
  unfold row setEntries
  rw [Row.getD_set]
  by_cases hz : z = (F.typeId k).zone
  · rw [if_pos hz, if_pos (congrArg Zone.index hz), hz]
    rfl
  · rw [if_neg hz, if_neg fun h => hz (Zone.index_injective h)]

theorem setEntries_setEntries (t : Tables F V) (k : F.Kind) (es es' : List ((r : F.Request) × V r)) :
    (t.setEntries k es).setEntries k es' = t.setEntries k es' := by
  have hrow := row_setEntries t k es (F.typeId k).zone
  rw [if_pos rfl] at hrow
  rw [setEntries, hrow, setEntries, setEntries]
  dsimp only
  rw [Row.set_set, Row.set_set]

theorem shard?_setEntries (t : Tables F V) (k : F.Kind) (es : List ((r : F.Request) × V r))
    (id : TypeId) :
    (t.setEntries k es).shard? id = if id = F.typeId k then some ⟨k, es⟩ else t.shard? id := by
  unfold shard?
  rw [row_setEntries]
  by_cases hid : id = F.typeId k
  · rw [if_pos hid, hid, if_pos rfl, Row.getD_set, if_pos rfl]
  · rw [if_neg hid]
    by_cases hz : id.zone = (F.typeId k).zone
    · have hnumber : id.number.toNat ≠ (F.typeId k).number.toNat := fun h =>
        hid (congrArg₂ TypeId.mk hz (UInt8.toNat_inj.1 h))
      rw [if_pos hz, Row.getD_set, if_neg hnumber]
    · rw [if_neg hz]

theorem entriesOf_setEntries_self (t : Tables F V) (k : F.Kind)
    (es : List ((r : F.Request) × V r)) : (t.setEntries k es).entriesOf k = .ok es := by
  simp [entriesOf, shard?_setEntries]

theorem entries_eq {t : Tables F V} {k : F.Kind} {es : List ((r : F.Request) × V r)}
    (h : t.entriesOf k = .ok es) : t.entries k = es := by
  simp [entries, h]

/-- Replacing the table of a kind is seen by this kind only. -/
theorem entries_setEntries {t : Tables F V} {k : F.Kind} {es : List ((r : F.Request) × V r)}
    (h : t.entriesOf k = .ok es) (es' : List ((r : F.Request) × V r)) (k' : F.Kind) :
    (t.setEntries k es').entries k' = if k' = k then es' else t.entries k' := by
  by_cases hk : k' = k
  · subst hk
    rw [if_pos rfl]
    exact entries_eq (entriesOf_setEntries_self t k' es')
  · rw [if_neg hk]
    by_cases hid : F.typeId k' = F.typeId k
    · -- the number belongs to `k`, or to nobody before
      have hold : t.entries k' = [] := by
        unfold entriesOf at h
        unfold entries entriesOf
        rw [hid]
        cases hs : t.shard? (F.typeId k) with
        | none => rfl
        | some s =>
          rw [hs] at h
          by_cases ho : s.owner = k
          · have ho' : s.owner ≠ k' := fun e => hk (e.symm.trans ho)
            simp [ho']
          · simp [ho] at h
      rw [hold]
      simp [entries, entriesOf, shard?_setEntries, hid, Ne.symm hk]
    · simp [entries, entriesOf, shard?_setEntries, hid]

theorem get?_eq_ok {t : Tables F V} {r : F.Request} {v : Option (V r)} (h : t.get? r = .ok v) :
    v = t.value? r := by
  unfold get? at h
  cases he : t.entriesOf (F.kind r) with
  | error f => rw [he] at h; cases h
  | ok es =>
    rw [he] at h
    cases h
    rw [value?, entries_eq he]

theorem get?_of_value? {t : Tables F V} {r : F.Request} {v : V r} (h : t.value? r = some v) :
    t.get? r = .ok (some v) := by
  unfold value? entries at h
  unfold get?
  cases he : t.entriesOf (F.kind r) with
  | error f =>
    rw [he] at h
    cases h
  | ok es =>
    rw [he] at h
    exact congrArg Except.ok h

/-- Replacing the entries of a kind changes the values of the requests of this kind. -/
theorem value?_setEntries {t : Tables F V} {r q : F.Request} {es es' : List ((r : F.Request) × V r)}
    (h : t.entriesOf (F.kind r) = .ok es)
    (hq : q ≠ r → Entries.find? q es' = Entries.find? q es) (hne : q ≠ r) :
    (t.setEntries (F.kind r) es').value? q = t.value? q := by
  unfold value?
  rw [entries_setEntries h]
  by_cases hk : F.kind q = F.kind r
  · rw [if_pos hk, hq hne, hk, entries_eq h]
  · rw [if_neg hk]

theorem value?_setEntries_self {t : Tables F V} {r : F.Request}
    {es es' : List ((r : F.Request) × V r)} (h : t.entriesOf (F.kind r) = .ok es) :
    (t.setEntries (F.kind r) es').value? r = Entries.find? r es' := by
  rw [value?, entries_setEntries h, if_pos rfl]

theorem size_setEntries {t : Tables F V} {k : F.Kind} {es : List ((r : F.Request) × V r)}
    (h : t.entriesOf k = .ok es) (es' : List ((r : F.Request) × V r)) :
    (t.setEntries k es').size + es.length = t.size + es'.length := by
  let f : Option (Shard F V) → Nat := fun s? => s?.elim 0 fun s => s.entries.length
  let i := (F.typeId k).number.toNat
  have hrows : (t.setEntries k es').size + Row.total f (t.row (F.typeId k).zone) =
      t.size + Row.total f (Row.set none (t.row (F.typeId k).zone) i (some ⟨k, es'⟩)) :=
    Row.total_set [] rfl t.rows _ _
  have hrow : Row.total f (Row.set none (t.row (F.typeId k).zone) i (some ⟨k, es'⟩)) +
      f (t.shard? (F.typeId k)) = Row.total f (t.row (F.typeId k).zone) + es'.length :=
    Row.total_set none rfl _ _ _
  have hold : f (t.shard? (F.typeId k)) = es.length := by
    unfold entriesOf at h
    cases hs : t.shard? (F.typeId k) with
    | none =>
      rw [hs] at h
      cases h
      rfl
    | some s =>
      rw [hs] at h
      by_cases ho : s.owner = k
      · simp only [ho, if_true] at h
        cases h
        rfl
      · simp [ho] at h
  omega

/-- The entries of one kind are some of all. -/
theorem length_entries_le (t : Tables F V) (k : F.Kind) :
    (t.entries k).length ≤ t.size := by
  unfold entries
  cases h : t.entriesOf k with
  | error f => exact Nat.zero_le _
  | ok es =>
    have hsize := size_setEntries h []
    rw [List.length_nil] at hsize
    show es.length ≤ t.size
    omega

/-! ## Operations that are not refused -/

theorem put_values {t t' : Tables F V} {r : F.Request} {v : V r} (h : t.put r v = .ok t') :
    t'.value? r = some v ∧ ∀ q, q ≠ r → t'.value? q = t.value? q := by
  unfold put at h
  cases he : t.entriesOf (F.kind r) with
  | error f => rw [he] at h; cases h
  | ok es =>
    rw [he] at h
    cases h
    constructor
    · rw [value?_setEntries_self he, Entries.find?_put_self]
    · intro q hq
      exact value?_setEntries he (fun hne => Entries.find?_put_of_ne hne v es) hq

theorem insert_values {t t' : Tables F V} {r : F.Request} {v : V r} (h : t.insert r v = .ok t') :
    t'.value? r = some v ∧ ∀ q, q ≠ r → t'.value? q = t.value? q := by
  apply put_values
  unfold insert at h
  unfold put
  cases he : t.entriesOf (F.kind r) with
  | error f => rw [he] at h; cases h
  | ok es =>
    rw [he] at h
    cases hf : Entries.find? r es with
    | some w => simp only [bind, Except.bind, hf] at h; cases h
    | none => simpa only [bind, Except.bind, hf] using h

theorem erase_values {t t' : Tables F V} {r : F.Request} {b : Bool}
    (h : t.erase r = .ok (b, t')) :
    t'.value? r = none ∧ ∀ q, q ≠ r → t'.value? q = t.value? q := by
  unfold erase at h
  cases he : t.entriesOf (F.kind r) with
  | error f => rw [he] at h; cases h
  | ok es =>
    rw [he] at h
    cases hf : Entries.find? r es with
    | none =>
      simp only [bind, Except.bind, hf] at h
      cases h
      exact ⟨by rw [value?, entries_eq he, hf], fun q _ => rfl⟩
    | some w =>
      simp only [bind, Except.bind, hf] at h
      cases h
      constructor
      · rw [value?_setEntries_self he, Entries.find?_erase, if_pos rfl]
      · intro q hq
        exact value?_setEntries he (fun hne => by rw [Entries.find?_erase, if_neg hne]) hq

/-- Whether there was a value is told. -/
theorem erase_had {t t' : Tables F V} {r : F.Request} {b : Bool} (h : t.erase r = .ok (b, t')) :
    b = (t.value? r).isSome := by
  unfold erase at h
  cases he : t.entriesOf (F.kind r) with
  | error f => rw [he] at h; cases h
  | ok es =>
    rw [he] at h
    rw [value?, entries_eq he]
    cases hf : Entries.find? r es with
    | none =>
      simp only [bind, Except.bind, hf] at h
      cases h
      rfl
    | some w =>
      simp only [bind, Except.bind, hf] at h
      cases h
      rfl

theorem value?_of_erase_error {t : Tables F V} {r : F.Request} {f : Fault F}
    (h : t.erase r = .error f) : t.value? r = none := by
  unfold erase at h
  unfold value? entries
  cases he : t.entriesOf (F.kind r) with
  | error f => rfl
  | ok es =>
    rw [he] at h
    simp only [bind, Except.bind] at h
    cases hf : Entries.find? r es with
    | none => rfl
    | some v => rw [hf] at h; cases h

theorem shard?_clear (t : Tables F V) (id : TypeId) :
    t.clear.shard? id = (t.shard? id).map fun s => { s with entries := [] } := by
  have hrow : t.clear.row id.zone =
      (t.row id.zone).map fun s? => s?.map fun s => { s with entries := [] } :=
    List.getD_map _ [] _
  rw [shard?, hrow]
  exact List.getD_map _ none _

theorem size_clear (t : Tables F V) : t.clear.size = 0 := by
  refine Row.total_eq_zero fun row hrow => Row.total_eq_zero fun s? hs => ?_
  obtain ⟨row, -, rfl⟩ := List.mem_map.1 hrow
  obtain ⟨s?, -, rfl⟩ := List.mem_map.1 hs
  cases s? <;> rfl

@[simp] theorem entries_clear (t : Tables F V) (k : F.Kind) : t.clear.entries k = [] := by
  unfold entries entriesOf
  rw [shard?_clear]
  cases t.shard? (F.typeId k) with
  | none => rfl
  | some s => by_cases h : s.owner = k <;> simp [h]

@[simp] theorem value?_clear (t : Tables F V) (r : F.Request) : t.clear.value? r = none := by
  rw [value?, entries_clear, Entries.find?]

/-! ## Operations that are refused -/

theorem entriesOf_error {t : Tables F V} {k : F.Kind} {f : Fault F}
    (h : t.entriesOf k = .error f) : f = .sharedTypeId k := by
  unfold entriesOf at h
  split at h
  · cases h
  · split at h
    · cases h
    · cases h
      rfl

theorem get?_error {t : Tables F V} {r : F.Request} {f : Fault F} (h : t.get? r = .error f) :
    f = .sharedTypeId (F.kind r) := by
  unfold get? at h
  cases he : t.entriesOf (F.kind r) with
  | error f' =>
    rw [he] at h
    cases h
    exact entriesOf_error he
  | ok es => rw [he] at h; cases h

theorem put_error {t : Tables F V} {r : F.Request} {v : V r} {f : Fault F}
    (h : t.put r v = .error f) : f = .sharedTypeId (F.kind r) := by
  unfold put at h
  cases he : t.entriesOf (F.kind r) with
  | error f' =>
    rw [he] at h
    cases h
    exact entriesOf_error he
  | ok es => rw [he] at h; cases h

theorem erase_error {t : Tables F V} {r : F.Request} {f : Fault F} (h : t.erase r = .error f) :
    f = .sharedTypeId (F.kind r) := by
  unfold erase at h
  cases he : t.entriesOf (F.kind r) with
  | error f' =>
    rw [he] at h
    cases h
    exact entriesOf_error he
  | ok es =>
    rw [he] at h
    simp only [bind, Except.bind] at h
    split at h <;> cases h

/-- A value that is not there is not refused for being there. -/
theorem insert_error {t : Tables F V} {r : F.Request} {v : V r} {f : Fault F}
    (hn : t.value? r = none) (h : t.insert r v = .error f) : f = .sharedTypeId (F.kind r) := by
  unfold insert at h
  cases he : t.entriesOf (F.kind r) with
  | error f' =>
    rw [he] at h
    cases h
    exact entriesOf_error he
  | ok es =>
    rw [value?, entries_eq he] at hn
    rw [he] at h
    simp only [bind, Except.bind, hn] at h
    cases h

/-- Without a table nothing is refused. -/
theorem insert_of_shard? {t : Tables F V} {r : F.Request} (h : t.shard? (F.typeId (F.kind r)) = none)
    (v : V r) : t.insert r v = .ok (t.setEntries (F.kind r) [⟨r, v⟩]) := by
  have hentries : t.entriesOf (F.kind r) = .ok [] := by rw [entriesOf, h]
  rw [insert, hentries]
  rfl

/-- The table may as well be there before a value is stored. -/
theorem insert_provide (t : Tables F V) (r : F.Request) (v : V r) :
    (t.provide (F.kind r)).insert r v = t.insert r v := by
  unfold provide
  cases hs : t.shard? (F.typeId (F.kind r)) with
  | some s => rfl
  | none =>
    rw [insert_of_shard? hs, insert]
    dsimp only
    rw [entriesOf_setEntries_self]
    exact congrArg Except.ok (setEntries_setEntries t (F.kind r) [] _)

/-- Where a value is refused the table was there. -/
theorem provide_of_insert_error {t : Tables F V} {r : F.Request} {v : V r} {f : Fault F}
    (h : t.insert r v = .error f) : t.provide (F.kind r) = t := by
  unfold provide
  cases hs : t.shard? (F.typeId (F.kind r)) with
  | some s => rfl
  | none =>
    rw [insert_of_shard? hs] at h
    cases h

/-! ## Tables that belong to known kinds -/

section Owned

variable {known : F.Kind → Prop}

theorem owned_empty : ({} : Tables F V).Owned known := by
  rintro id s ⟨⟩

theorem owned_setEntries {t : Tables F V} (ht : t.Owned known) {k : F.Kind} (hk : known k)
    (es : List ((r : F.Request) × V r)) : (t.setEntries k es).Owned known := by
  intro id s hs
  rw [shard?_setEntries] at hs
  by_cases hid : id = F.typeId k
  · rw [if_pos hid] at hs
    cases hs
    exact ⟨hid.symm, hk⟩
  · rw [if_neg hid] at hs
    exact ht id s hs

theorem owned_clear {t : Tables F V} (ht : t.Owned known) : t.clear.Owned known := by
  intro id s hs
  rw [shard?_clear] at hs
  obtain ⟨s', hs', rfl⟩ := Option.map_eq_some_iff.1 hs
  exact ht id s' hs'

theorem owned_mono {t : Tables F V} {known' : F.Kind → Prop} (ht : t.Owned known)
    (h : ∀ k, known k → known' k) : t.Owned known' :=
  fun id s hs => ⟨(ht id s hs).1, h _ (ht id s hs).2⟩

theorem put_owned {t t' : Tables F V} (ht : t.Owned known) {r : F.Request}
    (hr : known (F.kind r)) {v : V r} (h : t.put r v = .ok t') : t'.Owned known := by
  unfold put at h
  cases he : t.entriesOf (F.kind r) with
  | error f => rw [he] at h; cases h
  | ok es =>
    rw [he] at h
    cases h
    exact owned_setEntries ht hr _

theorem insert_owned {t t' : Tables F V} (ht : t.Owned known) {r : F.Request}
    (hr : known (F.kind r)) {v : V r} (h : t.insert r v = .ok t') : t'.Owned known := by
  unfold insert at h
  cases he : t.entriesOf (F.kind r) with
  | error f => rw [he] at h; cases h
  | ok es =>
    rw [he] at h
    cases hf : Entries.find? r es with
    | some w => simp only [bind, Except.bind, hf] at h; cases h
    | none =>
      simp only [bind, Except.bind, hf] at h
      cases h
      exact owned_setEntries ht hr _

/-- A value that is dropped was stored by its own kind, so nothing new gets a table. -/
theorem erase_owned {t t' : Tables F V} (ht : t.Owned known) {r : F.Request} {b : Bool}
    (h : t.erase r = .ok (b, t')) : t'.Owned known := by
  unfold erase at h
  cases he : t.entriesOf (F.kind r) with
  | error f => rw [he] at h; cases h
  | ok es =>
    rw [he] at h
    cases hf : Entries.find? r es with
    | none =>
      simp only [bind, Except.bind, hf] at h
      cases h
      exact ht
    | some w =>
      simp only [bind, Except.bind, hf] at h
      cases h
      refine owned_setEntries ht ?_ _
      unfold entriesOf at he
      cases hs : t.shard? (F.typeId (F.kind r)) with
      | none =>
        rw [hs] at he
        cases he
        simp [Entries.find?] at hf
      | some s =>
        rw [hs] at he
        by_cases ho : s.owner = F.kind r
        · exact ho ▸ (ht _ _ hs).2
        · simp [ho] at he

/-- A kind for which a value is kept is one of those that tables belong to. -/
theorem known_of_value? {t : Tables F V} (ht : t.Owned known) {r : F.Request} {v : V r}
    (h : t.value? r = some v) : known (F.kind r) := by
  unfold value? entries entriesOf at h
  cases hs : t.shard? (F.typeId (F.kind r)) with
  | none => simp [hs, Entries.find?] at h
  | some s =>
    by_cases ho : s.owner = F.kind r
    · rw [← ho]
      exact (ht _ _ hs).2
    · simp [hs, ho, Entries.find?] at h

/-- Known kinds with numbers of their own find no table of another kind. -/
theorem entriesOf_eq {t : Tables F V} (ht : t.Owned known)
    (inj : ∀ k k', known k → known k' → F.typeId k = F.typeId k' → k = k') {k : F.Kind}
    (hk : known k) : t.entriesOf k = .ok (t.entries k) := by
  have hok : ∃ es, t.entriesOf k = .ok es := by
    unfold entriesOf
    cases hs : t.shard? (F.typeId k) with
    | none => exact ⟨_, rfl⟩
    | some s =>
      obtain ⟨hid, hown⟩ := ht _ _ hs
      have ho : s.owner = k := inj _ _ hown hk hid
      exact ⟨s.entries, by simp [ho]⟩
  obtain ⟨es, hes⟩ := hok
  rw [hes, entries_eq hes]

theorem get?_eq {t : Tables F V} (ht : t.Owned known)
    (inj : ∀ k k', known k → known k' → F.typeId k = F.typeId k' → k = k') {r : F.Request}
    (hr : known (F.kind r)) : t.get? r = .ok (t.value? r) := by
  simp only [get?, entriesOf_eq ht inj hr]
  rfl

theorem exists_put {t : Tables F V} (ht : t.Owned known)
    (inj : ∀ k k', known k → known k' → F.typeId k = F.typeId k' → k = k') {r : F.Request}
    (hr : known (F.kind r)) (v : V r) : ∃ t', t.put r v = .ok t' := by
  simp only [put, entriesOf_eq ht inj hr]
  exact ⟨_, rfl⟩

theorem exists_insert {t : Tables F V} (ht : t.Owned known)
    (inj : ∀ k k', known k → known k' → F.typeId k = F.typeId k' → k = k') {r : F.Request}
    (hr : known (F.kind r)) (v : V r) (hn : t.value? r = none) : ∃ t', t.insert r v = .ok t' := by
  unfold value? at hn
  simp only [insert, entriesOf_eq ht inj hr, bind, Except.bind, hn]
  exact ⟨_, rfl⟩

theorem exists_erase {t : Tables F V} (ht : t.Owned known)
    (inj : ∀ k k', known k → known k' → F.typeId k = F.typeId k' → k = k') {r : F.Request}
    (hr : known (F.kind r)) : ∃ b t', t.erase r = .ok (b, t') := by
  simp only [erase, entriesOf_eq ht inj hr, bind, Except.bind]
  cases Entries.find? r (t.entries (F.kind r)) with
  | none => exact ⟨_, _, rfl⟩
  | some v => exact ⟨_, _, rfl⟩

end Owned

end Tables

/-- The computation of the kind is known. -/
def Registry.knows {F : Family} (g : Registry F) (k : F.Kind) : Prop :=
  g.check k = .ok ()

instance {F : Family} (g : Registry F) (k : F.Kind) : Decidable (g.knows k) :=
  match h : g.check k with
  | .ok () => .isTrue h
  | .error _ => .isFalse fun h' => by rw [Registry.knows, h] at h'; cases h'

/-- A computation that is not known is no result that is kept twice. -/
theorem Registry.check_error {F : Family} {g : Registry F} {k : F.Kind} {f : Fault F}
    (h : g.check k = .error f) (q : F.Request) : f ≠ .alreadyCached q := by
  unfold check at h
  split at h
  · cases h
    simp
  · split at h
    · cases h
      simp
    · split at h
      · cases h
      · cases h
        simp

/-- No two kinds with a known computation share a number. -/
theorem Registry.knows_injective {F : Family} {g : Registry F} (k k' : F.Kind) (hk : g.knows k)
    (hk' : g.knows k') (h : F.typeId k = F.typeId k') : k = k' := by
  unfold knows check at hk hk'
  rw [h] at hk
  cases hz : g.zone? (F.typeId k').zone with
  | none => simp [hz] at hk
  | some z =>
    simp only [hz] at hk hk'
    cases hf : z.kinds.find? fun j => F.typeId j = F.typeId k' with
    | none => simp [hf] at hk
    | some j =>
      simp only [hf] at hk hk'
      have h1 : j = k := Decidable.byContradiction fun hne => by simp [hne] at hk
      have h2 : j = k' := Decidable.byContradiction fun hne => by simp [hne] at hk'
      exact h1.symm.trans h2

end Demand
