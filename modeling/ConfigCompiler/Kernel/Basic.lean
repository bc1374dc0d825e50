import ConfigCompiler.Kernel.Catalog
import ConfigCompiler.Kernel.Payload
import ConfigCompiler.Kernel.Stats

/-!
# The kernel

A kernel compiles raw configurations and answers views over them. It owns an interner and a cache, and it
counts who holds each payload, as the interner does for nodes: the cache, callers, and those who wait for a
production. A payload that nobody holds lets go of its nodes.
-/

namespace ConfigCompiler

/-- A kernel whose passes may have hooks of type `H`. -/
structure Kernel (H : Type) where
  settings : Settings
  /-- What new compilations are expanded against. -/
  hierarchy : Hierarchy
  overrides : Overrides
  passes : Catalog (Pass H)
  /-- The passes of new compilations, in order. -/
  pipeline : List (Pass H)
  views : Catalog View
  store : Store
  cache : Cache CacheKey KernelError Payload
  /-- The number of holders of each payload. -/
  holders : Std.HashMap Nat Nat
  nextPayload : Nat
  /-- The number of callers who wait for each flight. -/
  waiting : Std.HashMap Nat Nat
  runs : Entries Nat
  compilations : Nat
  /-- The snapshots published so far, the last one first. -/
  published : List Kernel.Stats

namespace Kernel

variable {H : Type}

/-- A kernel with the passes and views that every kernel starts with. -/
def new (settings : Settings) (hierarchy : Hierarchy) : Except KernelError (Kernel H) := do
  settings.check.mapError .settings
  let passes : Catalog (Pass H) := Pass.builtins
  let pipeline ← passes.resolve settings.passes
  return {
    settings, hierarchy, passes, pipeline
    overrides := settings.overrides
    views := View.builtins
    store := .empty settings.quantization
    cache := .empty settings.capacity
    holders := ∅
    nextPayload := 0
    waiting := ∅
    runs := []
    compilations := 0
    published := [] }

/-! ## Payloads -/

def holderCount (k : Kernel H) (p : Payload) : Nat := k.holders.getD p.id 0

/-- So many more holders of a payload. -/
def retain (k : Kernel H) (p : Payload) (count : Nat) : Kernel H :=
  { k with holders := k.holders.insert p.id (k.holderCount p + count) }

/-- One holder of a payload less; without holders it lets go of its nodes. -/
def release (k : Kernel H) (p : Payload) : Kernel H :=
  if k.holderCount p ≤ 1 then
    { k with
      holders := k.holders.erase p.id
      store := k.store.releaseAll p.content.nodes }
  else { k with holders := k.holders.insert p.id (k.holderCount p - 1) }

def releaseAll (k : Kernel H) (ps : List Payload) : Kernel H := ps.foldl release k

/-- A new payload, held by whoever made it, of a content whose nodes have been retained for it. -/
def wrap (k : Kernel H) (content : Payload.Content) : Kernel H × Payload :=
  let p : Payload := ⟨k.nextPayload, content⟩
  ({ k with nextPayload := k.nextPayload + 1, holders := k.holders.insert p.id 1 }, p)

/-! ## Identity -/

/-- The digest of a raw configuration under the kernel's policy. -/
def sourceDigest (k : Kernel H) (raw : Value) : Digest := raw.digest k.store.quantization

def passSetFields (k : Kernel H) : List Digest.Field :=
  .seqHeader k.pipeline.length :: k.pipeline.map (fun p => .text p.name) ++
    [.digest k.hierarchy.digest, .quantization k.store.quantization, .digest k.overrides.digest]

/-- Identifies the pass list, the hierarchy and the policies. -/
def passSet (k : Kernel H) : Digest := Digest.ofFields "strata.pass-set.v1" k.passSetFields

/-! ## Administration -/

def registerPass (k : Kernel H) (pass : Pass H) : Except KernelError (Kernel H) :=
  return { k with passes := ← k.passes.addPass pass }

def registerView (k : Kernel H) (view : View) : Except KernelError (Kernel H) :=
  return { k with views := ← k.views.addView view }

/-- Replaces the pass list, unless one of the names is unknown or listed twice. -/
def setPassList (k : Kernel H) (names : List String) : Except KernelError (Kernel H) :=
  return { k with
    pipeline := ← k.passes.resolve names
    settings := { k.settings with passes := names } }

/-- Drops the cached payloads whose keys match and says how many there were. -/
def invalidate (k : Kernel H) (doomed : CacheKey → Bool) : Kernel H × Nat :=
  let (cache, dropped) := k.cache.invalidate doomed
  (({ k with cache }).releaseAll dropped, dropped.length)

/-- Drops all that was derived from a raw configuration. -/
def invalidateSource (k : Kernel H) (source : Digest) : Kernel H × Nat :=
  k.invalidate (·.source = source)

/-- Puts another hierarchy in place and drops all that was derived from the one before. -/
def replaceHierarchy (k : Kernel H) (hierarchy : Hierarchy) : Kernel H × Nat :=
  ({ k with hierarchy }).invalidate fun _ => true

/-! ## Statistics -/

def stats (k : Kernel H) : Kernel.Stats := ⟨k.cache.stats, k.store.stats, k.runs, k.compilations⟩

/-- Publishes a snapshot. -/
def report (k : Kernel H) : Kernel H := { k with published := k.stats :: k.published }

/-- Counts one run of a pass. -/
def countRun (runs : Entries Nat) (pass : String) : Entries Nat :=
  runs.insert pass ((runs.get? pass).getD 0 + 1)

/-- Counts a successful compilation, and publishes a snapshot if the settings say so. -/
def record (k : Kernel H) (passes : List String) : Kernel H :=
  let k := { k with compilations := k.compilations + 1 }
  if k.settings.collectsStats then ({ k with runs := passes.foldl countRun k.runs }).report else k

/-- How inspection shows counters of a cache. -/
def inspectStats (s : Cache.Stats) : String :=
  let counters := [("hits", s.hits), ("misses", s.misses), ("coalesced", s.coalesced),
    ("evictions", s.evictions), ("invalidations", s.invalidations), ("entries", s.entries),
    ("weight", s.weight.toNat), ("in_flight", s.inFlight)]
  "CacheStats \x7b " ++
    String.intercalate ", " (counters.map fun (name, n) => name ++ ": " ++ toString n) ++ " \x7d"

def inspect (k : Kernel H) : String :=
  "Kernel \x7b pipeline: " ++ Text.quotedList (k.pipeline.map Pass.name) ++ ", hierarchy: " ++
    k.hierarchy.digest.inspect ++ ", cache: " ++ inspectStats k.cache.stats ++ ", .. \x7d"

end Kernel

end ConfigCompiler
