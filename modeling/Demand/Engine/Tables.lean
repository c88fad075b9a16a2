import Demand.Engine.Fault

/-! Tables: values kept for requests, one table for each number of a kind.

The tables of a zone lie in a row, each at its number. The rows, and the places in a row, are there
as far as a table was put. A table is made when the first value is stored under its number, and
belongs to the kind of that first request for good, also when it is emptied. A request of another
kind with the same number cannot use it. While the kinds in use have different numbers the tables
are one map from requests to values. -/

namespace Demand

/-- The values kept under one number: the kind they belong to, and the entries. -/
structure Shard (F : Family) (V : F.Request → Type) where
  owner : F.Kind
  entries : List ((r : F.Request) × V r)

/-- The tables: a row for each zone, at the index of the zone. -/
structure Tables (F : Family) (V : F.Request → Type) where
  rows : List (List (Option (Shard F V))) := []

namespace Row

variable {α : Type}

/-- The row with something at a place, made longer by fillers as far as it is too short. -/
def set (filler : α) : List α → Nat → α → List α
  | [], 0, a => [a]
  | [], i + 1, a => filler :: set filler [] i a
  | _ :: row, 0, a => a :: row
  | b :: row, i + 1, a => b :: set filler row i a

/-- The numbers of all that is in a row, added up. -/
def total (f : α → Nat) (row : List α) : Nat :=
  row.foldr (fun a n => f a + n) 0

end Row

namespace Entries

variable {F : Family} {V : F.Request → Type}

/-- The value of a request. -/
def find? (r : F.Request) : List ((r : F.Request) × V r) → Option (V r)
  | [] => none
  | ⟨q, v⟩ :: rest => if h : q = r then some (h ▸ v) else find? r rest

/-- The entries without those of a request. -/
def erase (r : F.Request) (entries : List ((r : F.Request) × V r)) : List ((r : F.Request) × V r) :=
  entries.filter fun e => e.1 ≠ r

/-- The entries with a value for a request, in place of the one it had. -/
def put (r : F.Request) (v : V r) (entries : List ((r : F.Request) × V r)) :
    List ((r : F.Request) × V r) :=
  ⟨r, v⟩ :: erase r entries

theorem find?_erase (r q : F.Request) (entries : List ((r : F.Request) × V r)) :
    find? q (erase r entries) = if q = r then none else find? q entries := by
  induction entries with
  | nil => simp [erase, find?]
  | cons e rest ih =>
    obtain ⟨p, v⟩ := e
    unfold erase at ih ⊢
    by_cases hp : p = r
    · subst hp
      simp only [ne_eq, not_true_eq_false, decide_false, Bool.false_eq_true, not_false_eq_true,
        List.filter_cons_of_neg, ih, find?]
      by_cases hq : q = p
      · simp [hq]
      · simp [hq, Ne.symm hq]
    · simp only [ne_eq, hp, not_false_eq_true, decide_true, List.filter_cons_of_pos, find?, ih]
      by_cases hq : p = q
      · subst hq
        simp [hp]
      · simp [hq]

@[simp] theorem find?_put_self (r : F.Request) (v : V r) (entries : List ((r : F.Request) × V r)) :
    find? r (put r v entries) = some v := by
  simp [put, find?]

theorem find?_put_of_ne {r q : F.Request} (h : q ≠ r) (v : V r)
    (entries : List ((r : F.Request) × V r)) : find? q (put r v entries) = find? q entries := by
  simp [put, find?, Ne.symm h, find?_erase, h]

end Entries

namespace Tables

variable {F : Family} {V : F.Request → Type}

/-- The row of a zone, empty before its first table is made. -/
def row (t : Tables F V) (z : Zone) : List (Option (Shard F V)) :=
  t.rows.getD z.index []

def shard? (t : Tables F V) (id : TypeId) : Option (Shard F V) :=
  (t.row id.zone).getD id.number.toNat none

/-- The entries that a request of the kind may use: none before its table is made, and a fault if
the table belongs to another kind. -/
def entriesOf (t : Tables F V) (k : F.Kind) : Except (Fault F) (List ((r : F.Request) × V r)) :=
  match t.shard? (F.typeId k) with
  | none => .ok []
  | some s => if s.owner = k then .ok s.entries else .error (.sharedTypeId k)

/-- The entries of a kind, none also where its number belongs to another kind. -/
def entries (t : Tables F V) (k : F.Kind) : List ((r : F.Request) × V r) :=
  match t.entriesOf k with
  | .ok es => es
  | .error _ => []

/-- Replaces the table of a kind, or makes it. -/
def setEntries (t : Tables F V) (k : F.Kind) (entries : List ((r : F.Request) × V r)) :
    Tables F V :=
  let id := F.typeId k
  ⟨Row.set [] t.rows id.zone.index
    (Row.set none (t.row id.zone) id.number.toNat (some ⟨k, entries⟩))⟩

/-- The tables with one for the kind: an empty one is made if there is none. -/
def provide (t : Tables F V) (k : F.Kind) : Tables F V :=
  match t.shard? (F.typeId k) with
  | some _ => t
  | none => t.setEntries k []

/-- The value of a request. -/
def get? (t : Tables F V) (r : F.Request) : Except (Fault F) (Option (V r)) := do
  return Entries.find? r (← t.entriesOf (F.kind r))

/-- Stores a value for a request, in place of the one it had. -/
def put (t : Tables F V) (r : F.Request) (v : V r) : Except (Fault F) (Tables F V) := do
  return t.setEntries (F.kind r) (Entries.put r v (← t.entriesOf (F.kind r)))

/-- Stores a value for a request that has none. -/
def insert (t : Tables F V) (r : F.Request) (v : V r) : Except (Fault F) (Tables F V) := do
  let entries ← t.entriesOf (F.kind r)
  match Entries.find? r entries with
  | some _ => .error (.alreadyCached r)
  | none => return t.setEntries (F.kind r) (Entries.put r v entries)

/-- Drops the value of a request, and tells whether it had one. -/
def erase (t : Tables F V) (r : F.Request) : Except (Fault F) (Bool × Tables F V) := do
  let entries ← t.entriesOf (F.kind r)
  match Entries.find? r entries with
  | none => return (false, t)
  | some _ => return (true, t.setEntries (F.kind r) (Entries.erase r entries))

/-- Drops every value. The tables stay with their kinds. -/
def clear (t : Tables F V) : Tables F V :=
  ⟨t.rows.map fun row => row.map fun s? => s?.map fun s => { s with entries := [] }⟩

/-- The number of values. -/
def size (t : Tables F V) : Nat :=
  Row.total (Row.total fun s? => s?.elim 0 fun s => s.entries.length) t.rows

/-- Operations on tables. -/
inductive Operation (F : Family) (V : F.Request → Type) where
  | insert (r : F.Request) (v : V r)
  | get (r : F.Request)
  | contains (r : F.Request)
  | erase (r : F.Request)
  | clear

/-- What an operation gives. -/
inductive Reading (F : Family) (V : F.Request → Type) where
  | done
  | value (r : F.Request) (v : Option (V r))
  | flag (b : Bool)

/-- Carries out an operation. A fault leaves the tables as they were. -/
def apply (t : Tables F V) : Operation F V → Except (Fault F) (Reading F V × Tables F V)
  | .insert r v => do return (.done, ← t.insert r v)
  | .get r => do return (.value r (← t.get? r), t)
  | .contains r => do return (.flag (← t.get? r).isSome, t)
  | .erase r => do
    let (had, t) ← t.erase r
    return (.flag had, t)
  | .clear => return (.done, t.clear)

end Tables

end Demand
