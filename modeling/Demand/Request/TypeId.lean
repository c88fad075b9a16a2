/-! Numbers of request kinds: the zone of the program a kind belongs to and a number in it. -/

namespace Demand

/-- A part of a program with request kinds of its own. -/
inductive Zone where
  | parse | nameLookup | typeChecker | irGen | interfaceGen | testing
deriving DecidableEq, Repr

namespace Zone

/-- The zones in order. -/
def all : List Zone :=
  [parse, nameLookup, typeChecker, irGen, interfaceGen, testing]

def index : Zone → Nat
  | parse => 0
  | nameLookup => 1
  | typeChecker => 2
  | irGen => 3
  | interfaceGen => 4
  | testing => 5

def name : Zone → String
  | parse => "Parse"
  | nameLookup => "NameLookup"
  | typeChecker => "TypeChecker"
  | irGen => "IrGen"
  | interfaceGen => "InterfaceGen"
  | testing => "Testing"

theorem all_index (z : Zone) : all[z.index]? = some z := by
  cases z <;> rfl

end Zone

/-- The number of a request kind. -/
structure TypeId where
  zone : Zone
  number : UInt8
deriving DecidableEq, Repr

namespace TypeId

/-- Zone and number in one number, the zone in the high byte. Ids are sorted by it. -/
def code (t : TypeId) : Nat :=
  t.zone.index * 256 + t.number.toNat

/-- `Testing:0`. -/
def text (t : TypeId) : String :=
  s!"{t.zone.name}:{t.number.toNat}"

/-- `RequestTypeId(Testing:0)`. -/
def tag (t : TypeId) : String :=
  s!"RequestTypeId({t.text})"

/-- Puts an id into a list in increasing order, unless it is there. -/
def insertSorted (t : TypeId) : List TypeId → List TypeId
  | [] => [t]
  | u :: rest =>
    if t = u then u :: rest
    else if t.code < u.code then t :: u :: rest
    else u :: insertSorted t rest

/-- The ids in increasing order, each once. -/
def sort (ts : List TypeId) : List TypeId :=
  ts.foldr insertSorted []

theorem code_injective {a b : TypeId} (h : a.code = b.code) : a = b := by
  obtain ⟨za, na⟩ := a
  obtain ⟨zb, nb⟩ := b
  have ha := na.toNat_lt
  have hb := nb.toNat_lt
  simp only [code] at h
  have hz : za.index = zb.index := by omega
  have hn : na = nb := UInt8.toNat_inj.1 (by omega)
  have hz' := Zone.all_index za
  rw [hz, Zone.all_index zb] at hz'
  rw [hn, Option.some.inj hz']

end TypeId

end Demand
