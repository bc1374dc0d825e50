/-!
# Failures of calls to a cache
-/

namespace ConfigCompiler

/-- Why a caller has no payload, where producers fail with errors of type `ε`. -/
inductive CacheError (ε : Type) where
  | producer (error : ε)
  | waitTimedOut
  deriving DecidableEq, Repr

/-- The text of a failure, given that of a producer's error. -/
def CacheError.message {ε : Type} (describe : ε → String) : CacheError ε → String
  | producer error => "producer failed: " ++ describe error
  | waitTimedOut => "deadline passed while waiting for an in-flight producer"

end ConfigCompiler
