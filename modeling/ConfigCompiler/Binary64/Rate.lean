import ConfigCompiler.Binary64.Basic

/-!
# Rates
-/

namespace ConfigCompiler.Binary64

/-- A share of a total as a float, zero where there is no total; both counts are rounded first. -/
def rate (part total : Nat) : Binary64 :=
  if total = 0 then zero else (ofInt part).div (ofInt total)

end ConfigCompiler.Binary64
