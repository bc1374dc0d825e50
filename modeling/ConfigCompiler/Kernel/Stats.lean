import ConfigCompiler.Cache.Basic
import ConfigCompiler.Interner.Store

/-!
# Statistics of a kernel
-/

namespace ConfigCompiler

structure Kernel.Stats where
  cache : Cache.Stats
  intern : Store.Stats
  /-- How often each pass has run to its end in a successful compilation, in the order of first runs. -/
  runs : Entries Nat
  /-- The number of successful compilations. -/
  compilations : Nat

def Kernel.Stats.hitRate (s : Kernel.Stats) : Binary64 := s.cache.hitRate

/-- The greatest number of runs that a mean is taken over. -/
def maxMeanRuns : Nat := UInt32.size - 1

/-- The mean of a total time over runs, rounded down. -/
def meanTime (total runs : Nat) : Nat := total / min runs maxMeanRuns

end ConfigCompiler
