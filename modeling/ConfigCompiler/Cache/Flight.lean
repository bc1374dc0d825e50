/-!
# Productions in flight

A flight is one run of a producer. It ends by landing with a result, or is abandoned when the producer
unwinds; an invalidation in between makes it stale, so that its result still reaches those who wait but
is not cached.
-/

namespace ConfigCompiler

/-- How far a flight has come. -/
inductive Landing (ε α : Type) where
  | running
  | landed (result : Except ε α)
  | abandoned

structure Flight (ε α : Type) where
  stale : Bool
  landing : Landing ε α

namespace Flight

variable {ε α : Type}

def takeOff : Flight ε α := ⟨false, .running⟩

def markStale (f : Flight ε α) : Flight ε α := { f with stale := true }

def land (f : Flight ε α) (result : Except ε α) : Flight ε α := { f with landing := .landed result }

def abandon (f : Flight ε α) : Flight ε α := { f with landing := .abandoned }

end Flight

end ConfigCompiler
