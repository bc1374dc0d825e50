/-!
# Capacity of a cache
-/

namespace ConfigCompiler

/-- The most that a cache holds: a number of entries, or a total weight. -/
inductive Capacity where
  | entries (limit : Nat)
  | weight (budget : UInt64)
  deriving DecidableEq, Repr

namespace Capacity

def default : Capacity := entries 1024

def isZero : Capacity → Bool
  | entries limit => limit == 0
  | weight budget => budget == 0

/-- Whether so many entries of so much weight are too much. -/
def exceeded (capacity : Capacity) (count : Nat) (total : UInt64) : Bool :=
  match capacity with
  | entries limit => decide (limit < count)
  | weight budget => decide (budget < total)

end Capacity

end ConfigCompiler
