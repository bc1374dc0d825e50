/-!
# Deadlines
-/

namespace ConfigCompiler

/-- How long a caller waits for another caller's production, where it does not wait for ever. -/
inductive Deadline where
  /-- It has passed already. -/
  | expired
  /-- It is never reached. -/
  | distant
  deriving DecidableEq, Repr

end ConfigCompiler
