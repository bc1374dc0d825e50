import ConfigCompiler.Cache.Basic
import ConfigCompiler.Compilation.PathIndex
import ConfigCompiler.Interner.Store

/-!
# Compiled configurations

A compilation binds concrete keys to interned values, in ascending order of the keys. It never changes.
-/

namespace ConfigCompiler

structure Compilation where
  entries : Array (Key × Interned)
  /-- The position of each key. -/
  positions : Std.HashMap Key Nat
  index : PathIndex
  /-- The digest of the raw configuration. -/
  source : Digest
  /-- What the configuration was compiled by: passes, hierarchy and policies. -/
  passSet : Digest
  /-- The interner's counters when the compilation was finished. -/
  internStats : Store.Stats

namespace Compilation

/-- The positions of keys from a position on. -/
def positionsOf : (position : Nat) → List (Key × Interned) → Std.HashMap Key Nat →
    Std.HashMap Key Nat
  | _, [], positions => positions
  | position, e :: es, positions => positionsOf (position + 1) es (positions.insert e.1 position)

/-- Assembles a compilation from entries in ascending order of their keys. -/
def assemble (entries : List (Key × Interned)) (index : PathIndex) (source passSet : Digest)
    (internStats : Store.Stats) : Compilation where
  entries := entries.toArray
  positions := positionsOf 0 entries ∅
  index := index
  source := source
  passSet := passSet
  internStats := internStats

def size (c : Compilation) : Nat := c.entries.size

def keys (c : Compilation) : List Key := c.entries.toList.map Prod.fst

/-- The nodes that the compilation holds, one for each entry. -/
def nodes (c : Compilation) : List Interned := c.entries.toList.map Prod.snd

/-! ## Lookup -/

def get? (c : Compilation) (key : String) : Option Interned :=
  (c.positions[Key.mk key]?.bind fun i => c.entries[i]?).map Prod.snd

def contains (c : Compilation) (key : String) : Bool := c.positions.contains ⟨key⟩

/-- The entries strictly below a path, in ascending order of their keys. -/
def under (c : Compilation) (path : String) : List (Key × Interned) :=
  match c.index.span? path with
  | some (first, last) =>
    if first ≤ last ∧ last ≤ c.entries.size then (c.entries.extract first last).toList else []
  | none => []

/-! ## Identity and size -/

def fields (c : Compilation) : List Digest.Field :=
  .mapHeader c.size :: c.entries.toList.flatMap fun (key, n) => [.text key.text, .digest n.digest]

/-- The digest of the keys and the digests of their values. -/
def digest (c : Compilation) : Digest := Digest.ofFields "strata.compiled.v1" c.fields

def entrySize : Nat := 32

/-- The bytes that the entries take. -/
def byteSize (c : Compilation) : Nat :=
  c.entries.toList.foldr (fun e n => e.1.text.utf8ByteSize + entrySize + n) 0

instance : HasWeight Compilation := ⟨fun c => UInt64.ofNat c.byteSize⟩

def inspect (c : Compilation) : String :=
  "CompiledConfig \x7b entries: " ++ toString c.size ++ ", source: " ++ c.source.inspect ++
    ", pass_set: " ++ c.passSet.inspect ++ ", digest: " ++ c.digest.inspect ++ " \x7d"

end Compilation

end ConfigCompiler
