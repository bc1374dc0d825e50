import ConfigCompiler.Digest.Field
import ConfigCompiler.Value.Basic

/-!
# Digests of values

A composite is digested over the digests of its children, the entries of a map in the order of
their keys, so a digest forgets insertion order and nothing else that quantization keeps.
-/

namespace ConfigCompiler

namespace Digest

def valueDomain : String := "strata.value.v1"

/-- The fields of a sequence with the given children. -/
def seqFields (children : List Digest) : List Field :=
  .seqHeader children.length :: children.map .digest

/-- The fields of a map with the given entries, which are in the order of their keys. -/
def mapFields (entries : Entries Digest) : List Field :=
  .mapHeader entries.length :: entries.flatMap fun (key, child) => [.text key, .digest child]

def ofValueFields (fields : List Field) : Digest := ofFields valueDomain fields

/-- The digest of the null value. -/
def null : Digest := ofValueFields [.null]

end Digest

namespace Value

mutual

/-- The digest of a value under a policy. -/
def digest (q : Quantization) : Value → Digest
  | null => Digest.null
  | bool b => Digest.ofValueFields [.bool b]
  | int i => Digest.ofValueFields [.int i]
  | float x => Digest.ofValueFields [.float x q]
  | str s => Digest.ofValueFields [.text s]
  | seq items => Digest.ofValueFields (Digest.seqFields (digestItems q items))
  | map entries => Digest.ofValueFields (Digest.mapFields (Entries.sorted (digestEntries q entries)))

def digestItems (q : Quantization) : List Value → List Digest
  | [] => []
  | v :: items => digest q v :: digestItems q items

def digestEntries (q : Quantization) : List (String × Value) → List (String × Digest)
  | [] => []
  | (key, v) :: entries => (key, digest q v) :: digestEntries q entries

end

theorem digestItems_eq_map (q : Quantization) (items : List Value) :
    digestItems q items = items.map (digest q) := by
  induction items with
  | nil => simp [digestItems]
  | cons v items ih => simp [digestItems, ih]

theorem digestEntries_eq_map (q : Quantization) (entries : Entries Value) :
    digestEntries q entries = entries.map fun e => (e.1, digest q e.2) := by
  induction entries with
  | nil => simp [digestEntries]
  | cons e entries ih => simp [digestEntries, ih]

end Value

end ConfigCompiler
