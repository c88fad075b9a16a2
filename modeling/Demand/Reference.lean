/-! References: the names a computation looked at, so that a later change of one of them can tell
what has to be computed again. -/

namespace Demand

/-- A thing with members. -/
@[ext]
structure Entity where
  id : Nat
deriving DecidableEq, Repr

/-- `entity#4`. -/
def Entity.text (e : Entity) : String :=
  s!"entity#{e.id}"

/-- What was looked at: a member of an entity, any member it has or may get, a name at the top
level, or a name looked up on any entity. -/
inductive Reference where
  | member (subject : Entity) (name : String)
  | potentialMember (subject : Entity)
  | topLevel (name : String)
  | dynamic (name : String)
deriving DecidableEq, Repr

namespace Reference

def text : Reference → String
  | member subject name => s!"member {subject.text}.{name}"
  | potentialMember subject => s!"potential member of {subject.text}"
  | topLevel name => s!"top-level {name}"
  | dynamic name => s!"dynamic lookup {name}"

/-- The sort of the reference, the entity and the name: references are sorted by the first, then
by the second, then by the third. -/
def key : Reference → Nat × Nat × String
  | member subject name => (0, subject.id, name)
  | potentialMember subject => (1, subject.id, "")
  | topLevel name => (2, 0, name)
  | dynamic name => (3, 0, name)

/-- Whether the first reference is not sorted after the second. -/
def ordered (a b : Reference) : Bool :=
  let (s, e, n) := a.key
  let (s', e', n') := b.key
  s < s' || (s == s' && (e < e' || (e == e' && n ≤ n')))

/-- The references in order. -/
def sort (rs : List Reference) : List Reference :=
  rs.mergeSort ordered

theorem key_injective {a b : Reference} (h : a.key = b.key) : a = b := by
  cases a <;> cases b <;> simp_all [key, Entity.ext_iff]

end Reference

end Demand
