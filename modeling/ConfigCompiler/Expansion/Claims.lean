import Std.Data.HashMap
import ConfigCompiler.Expansion.Basic
import ConfigCompiler.Expansion.Overrides

/-!
# Claims on keys

All entries of a configuration are expanded in source order, and each claims the keys of its
expansion. The first claimant keeps a key against equal values; against a different value only a
declared pair of patterns may overlap, and then the more specific pattern takes the key, the later
one if they are equally specific.
-/

namespace ConfigCompiler

/-- A pattern and the digest of the value that it binds. -/
structure SourceEntry where
  pattern : Pattern
  value : Digest

/-- A key and the position of the source entry that binds it. -/
structure Expansion where
  key : Key
  origin : Nat
  deriving DecidableEq, Repr

/-- The source entry of a pattern's text. -/
def SourceEntry.ofText (text : String) (value : Digest) : Except ExpandError SourceEntry :=
  return ⟨← (Pattern.parse text).mapError .malformed, value⟩

namespace Expansion

/-- Which entry holds each key so far, by its position. -/
abbrev Holders := Std.HashMap Key Nat

/-- The holders after the entry at `origin` claims `key`. -/
def claim (entries : Array SourceEntry) (overrides : Overrides) (origin : Nat)
    (entry : SourceEntry) (holders : Holders) (key : Key) : Except ExpandError Holders :=
  match holders[key]?.bind fun holder => entries[holder]? with
  | none => .ok (holders.insert key origin)
  | some holder =>
    if holder.value = entry.value then .ok holders
    else if !overrides.allows holder.pattern.text entry.pattern.text then
      .error (.patternConflict key.text holder.pattern.text entry.pattern.text)
    else if holder.pattern.specificity ≤ entry.pattern.specificity then
      .ok (holders.insert key origin)
    else .ok holders

/-- The holders after the entries from position `origin` on have claimed their keys. -/
def claimAll (x : Expander) (entries : Array SourceEntry) (overrides : Overrides) :
    (origin : Nat) → List SourceEntry → Holders → Except ExpandError Holders
  | _, [], holders => .ok holders
  | origin, entry :: rest, holders => do
    let keys ← x.expand entry.pattern
    let holders ← keys.foldlM (claim entries overrides origin entry) holders
    claimAll x entries overrides (origin + 1) rest holders

/-- The keys of all entries, in ascending order, each with the entry that binds it. -/
def ofEntries (hierarchy : Hierarchy) (entries : List SourceEntry) (overrides : Overrides) :
    Except ExpandError (List Expansion) := do
  let x := Expander.ofKeys hierarchy (entries.map (·.pattern.text))
  let holders ← claimAll x entries.toArray overrides 0 entries ∅
  return (holders.toList.map fun (key, origin) => ⟨key, origin⟩).mergeSort
    fun a b => decide (a.key ≤ b.key)

end Expansion

end ConfigCompiler
