import ConfigCompiler.Digest.Field

/-!
# Override rules

Pairs of patterns that may bind one key to different values. A pair has no order.
-/

namespace ConfigCompiler

/-- The declared pairs, each once and its smaller text first. -/
structure Overrides where
  pairs : List (String × String)
  deriving DecidableEq

namespace Overrides

/-- A pair with its smaller text first. -/
def ordered (a b : String) : String × String := if a ≤ b then (a, b) else (b, a)

theorem ordered_comm (a b : String) : ordered a b = ordered b a := by
  unfold ordered
  by_cases hab : a ≤ b <;> by_cases hba : b ≤ a
  · simp [String.le_antisymm hab hba]
  · simp [hab, hba]
  · simp [hab, hba]
  · exact absurd (String.le_total a b) (by simp [hab, hba])

def none : Overrides := ⟨[]⟩

def ofPairs (pairs : List (String × String)) : Overrides :=
  ⟨(pairs.map fun (a, b) => ordered a b).eraseDups⟩

/-- Whether two patterns may overlap with different values. -/
def allows (r : Overrides) (a b : String) : Bool := r.pairs.contains (ordered a b)

theorem allows_comm (r : Overrides) (a b : String) : r.allows a b = r.allows b a := by
  rw [allows, ordered_comm, allows]

def size (r : Overrides) : Nat := r.pairs.length

/-- The order of pairs: by first text, then by second. -/
def pairLE (p q : String × String) : Bool :=
  decide (p.1 < q.1) || (p.1 == q.1 && decide (p.2 ≤ q.2))

def fields (r : Overrides) : List Digest.Field :=
  .seqHeader r.pairs.length ::
    (r.pairs.mergeSort pairLE).flatMap fun (a, b) => [.text a, .text b]

def digest (r : Overrides) : Digest := Digest.ofFields "strata.overrides.v1" r.fields

end Overrides

end ConfigCompiler
