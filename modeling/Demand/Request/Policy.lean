/-! How results of a request kind are kept and what its references are used for. -/

namespace Demand

/-- Where the result of a request is kept. -/
inductive Caching where
  /-- Nowhere: it is computed every time. -/
  | never
  /-- In the cache of the engine. -/
  | engine
  /-- In a store of its own outside the engine. -/
  | external
deriving DecidableEq, Repr

/-- The policy of a request kind: the caching of its results, whether the references it records
are filed under a source file, and whether its result writes references to whoever asks. -/
structure Policy where
  caching : Caching
  isSource : Bool := false
  isSink : Bool := false
deriving DecidableEq, Repr

namespace Policy

/-- Whether results are ever kept. -/
def keeps (p : Policy) : Bool :=
  p.caching != .never

def isExternal (p : Policy) : Bool :=
  p.caching == .external

/-- The policy written as a sum of flags: 1 for results that are not kept, 2 for the cache of the
engine, 4 for a store of its own, 8 for a source and 16 for a sink. Of two ways of caching the
one with the larger flag counts; a larger number is no sum of flags. -/
def ofFlags? (flags : Nat) : Option Policy :=
  if 32 ≤ flags then none
  else some {
    caching := if flags.testBit 2 then .external else if flags.testBit 1 then .engine else .never
    isSource := flags.testBit 3
    isSink := flags.testBit 4 }

end Policy

end Demand
