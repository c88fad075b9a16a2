import Demand.Engine.Fault

/-! The registry: for which kinds of request the computations are known.

The computations of a zone are given at once, each kind under its own number. -/

namespace Demand

/-- The kinds of one zone whose computations are given together. -/
structure ZoneRules (F : Family) where
  zone : Zone
  kinds : List F.Kind := []

namespace ZoneRules

variable {F : Family}

/-- Adds a kind of the zone under a number that is free. -/
def add (z : ZoneRules F) (k : F.Kind) : Except (Fault F) (ZoneRules F) :=
  if (F.typeId k).zone ≠ z.zone then .error (.wrongZone k z.zone)
  else if z.kinds.any fun k' => F.typeId k' = F.typeId k then .error (.typeIdTwice k)
  else .ok { z with kinds := z.kinds ++ [k] }

/-- The rules for these kinds of a zone. -/
def ofKinds (zone : Zone) (kinds : List F.Kind) : Except (Fault F) (ZoneRules F) :=
  kinds.foldlM add ⟨zone, []⟩

def size (z : ZoneRules F) : Nat :=
  z.kinds.length

end ZoneRules

/-- The zones whose computations are known, each at most once. -/
structure Registry (F : Family) where
  zones : List (ZoneRules F) := []

namespace Registry

variable {F : Family}

def zone? (g : Registry F) (z : Zone) : Option (ZoneRules F) :=
  g.zones.find? fun rules => rules.zone = z

/-- Adds the computations of a zone that is not known yet. -/
def install (g : Registry F) (rules : ZoneRules F) : Except (Fault F) (Registry F) :=
  match g.zone? rules.zone with
  | some _ => .error (.zoneTwice rules.zone)
  | none => .ok ⟨g.zones ++ [rules]⟩

/-- Checks that the computation of a kind is known. -/
def check (g : Registry F) (k : F.Kind) : Except (Fault F) Unit :=
  match g.zone? (F.typeId k).zone with
  | none => .error (.zoneUnknown k)
  | some rules =>
    match rules.kinds.find? fun k' => F.typeId k' = F.typeId k with
    | none => .error (.notRegistered k)
    | some k' => if k' = k then .ok () else .error (.otherKindRegistered k)

end Registry

end Demand
