import ConfigCompiler.Binary64.Rate
import ConfigCompiler.Cache.Capacity
import ConfigCompiler.Cache.Flight

/-!
# The cache

Entries in the order of their last use, and a slot for each key whose payload is being produced. A caller
who asks for a key finds its entry, joins its flight, or leads a flight of its own (`Cache.enter`); a
leader ends its flight by `Cache.finish` or `Cache.unwind`. Each function here is one atomic step.

What leaves the cache is handed back, so that the caller can let go of what it held. The sum of the weights
wraps if it leaves its word; `Cache.Checked` has the functions that panic instead.
-/

namespace ConfigCompiler

/-- Payloads have a weight. -/
class HasWeight (α : Type) where
  weight : α → UInt64

structure Cache.Stats where
  hits : Nat
  misses : Nat
  /-- Callers that were answered by another caller's production. -/
  coalesced : Nat
  evictions : Nat
  invalidations : Nat
  entries : Nat
  weight : UInt64
  inFlight : Nat
  deriving DecidableEq, Repr

/-- The share of lookups that ran no producer. -/
def Cache.Stats.hitRate (s : Cache.Stats) : Binary64 :=
  Binary64.rate (s.hits + s.coalesced) (s.hits + s.coalesced + s.misses)

structure Cache.Entry (κ α : Type) where
  key : κ
  value : α
  weight : UInt64

structure Cache (κ ε α : Type) where
  capacity : Capacity
  /-- The most recently used entry comes first. -/
  entries : List (Cache.Entry κ α)
  /-- The total weight of the entries. -/
  weight : UInt64
  /-- The key of each slot with the number of its flight. -/
  slots : List (κ × Nat)
  /-- All flights so far, by their numbers. -/
  flights : Array (Flight ε α)
  hits : Nat
  misses : Nat
  coalesced : Nat
  evictions : Nat
  invalidations : Nat

namespace Cache

variable {κ ε α : Type} [DecidableEq κ]

def empty (capacity : Capacity) : Cache κ ε α := ⟨capacity, [], 0, [], #[], 0, 0, 0, 0, 0⟩

def size (c : Cache κ ε α) : Nat := c.entries.length

def stats (c : Cache κ ε α) : Cache.Stats where
  hits := c.hits
  misses := c.misses
  coalesced := c.coalesced
  evictions := c.evictions
  invalidations := c.invalidations
  entries := c.size
  weight := c.weight
  inFlight := c.slots.length

/-! ## Entries -/

def find? (c : Cache κ ε α) (key : κ) : Option (Entry κ α) := c.entries.find? (·.key = key)

def contains (c : Cache κ ε α) (key : κ) : Bool := (c.find? key).isSome

/-- The entries without that of a key. -/
def without (entries : List (Entry κ α)) (key : κ) : List (Entry κ α) :=
  entries.filter (·.key ≠ key)

/-- Makes an entry the most recently used one and counts a hit. -/
def hit (c : Cache κ ε α) (e : Entry κ α) : Cache κ ε α :=
  { c with entries := e :: without c.entries e.key, hits := c.hits + 1 }

/-- The payload of a key; using it counts as a hit. -/
def get (c : Cache κ ε α) (key : κ) : Cache κ ε α × Option α :=
  match c.find? key with
  | some e => (c.hit e, some e.value)
  | none => (c, none)

/-! ## Admission -/

/--
Drops entries, the least recently used one first, until the rest fits: what stays in the same order, its
weight, and what was dropped.
-/
def evict (capacity : Capacity) : (oldestFirst : List (Entry κ α)) → (weight : UInt64) →
    List (Entry κ α) × UInt64 × List (Entry κ α)
  | [], weight => ([], weight, [])
  | e :: es, weight =>
    if capacity.exceeded (es.length + 1) weight then
      let (kept, weight, dropped) := evict capacity es (weight - e.weight)
      (kept, weight, e :: dropped)
    else (e :: es, weight, [])

/-- The weight that an entry is recorded with, or `none` for a payload that is too heavy to keep. -/
def admittedWeight [HasWeight α] (capacity : Capacity) (value : α) : Option UInt64 :=
  match capacity with
  | .entries _ => some 1
  | .weight budget => if budget < HasWeight.weight value then none else some (HasWeight.weight value)

/--
Stores a payload in place of an earlier one of its key and drops what no longer fits. A payload that is
heavier than the whole budget changes nothing. The payloads that left or were not admitted are handed back.
-/
def insert [HasWeight α] (c : Cache κ ε α) (key : κ) (value : α) : Cache κ ε α × List α :=
  match admittedWeight c.capacity value with
  | none => (c, [value])
  | some weight =>
    let replaced := c.find? key
    let total := c.weight - (replaced.elim 0 Entry.weight) + weight
    let entries := ⟨key, value, weight⟩ :: without c.entries key
    let (kept, total, dropped) := evict c.capacity entries.reverse total
    ({ c with
        entries := kept.reverse
        weight := total
        evictions := c.evictions + dropped.length },
      (replaced.toList ++ dropped).map Entry.value)

/-! ## Productions -/

/-- What a caller finds who asks for a payload that may have to be produced. -/
inductive Entrance (α : Type) where
  /-- An entry. -/
  | found (value : α)
  /-- A slot: another caller's flight to wait for. -/
  | join (flight : Nat)
  /-- Neither, so that the caller now leads this flight. -/
  | lead (flight : Nat)

def enter (c : Cache κ ε α) (key : κ) : Cache κ ε α × Entrance α :=
  match c.find? key with
  | some e => (c.hit e, .found e.value)
  | none =>
    match c.slots.lookup key with
    | some flight => (c, .join flight)
    | none =>
      let flight := c.flights.size
      ({ c with
          misses := c.misses + 1
          flights := c.flights.push .takeOff
          slots := (key, flight) :: c.slots },
        .lead flight)

def isStale (c : Cache κ ε α) (flight : Nat) : Bool := c.flights[flight]?.any Flight.stale

/-- Frees the slot of a key if it still belongs to a flight. -/
def release (c : Cache κ ε α) (key : κ) (flight : Nat) : Cache κ ε α :=
  { c with slots := c.slots.filter (· ≠ (key, flight)) }

/--
The leader's flight lands: its slot is freed, a payload is stored unless the flight is stale, and all who
wait for the flight receive the result. The payloads that left or were not admitted are handed back.
-/
def finish [HasWeight α] (c : Cache κ ε α) (key : κ) (flight : Nat) (result : Except ε α) :
    Cache κ ε α × List α :=
  let c := c.release key flight
  let (c, left) := match result with
    | .ok value => if c.isStale flight then (c, [value]) else c.insert key value
    | .error _ => (c, [])
  ({ c with flights := c.flights.modify flight (·.land result) }, left)

/-- The leader's producer unwinds: its slot is freed and those who wait for the flight start over. -/
def unwind (c : Cache κ ε α) (key : κ) (flight : Nat) : Cache κ ε α :=
  let c := c.release key flight
  { c with flights := c.flights.modify flight Flight.abandon }

/-- How far a flight has come; those that never took off are abandoned. -/
def landing (c : Cache κ ε α) (flight : Nat) : Landing ε α :=
  (c.flights[flight]?.map Flight.landing).getD .abandoned

/-- A caller who waited for a flight takes its result. -/
def coalesce (c : Cache κ ε α) : Cache κ ε α := { c with coalesced := c.coalesced + 1 }

/-! ## Invalidation -/

/--
Drops the entries whose keys match and detaches the flights of matching slots: they become stale, and the
next caller leads a flight of its own. The payloads that left are handed back.
-/
def invalidate (c : Cache κ ε α) (doomed : κ → Bool) : Cache κ ε α × List α :=
  let (dropped, kept) := c.entries.partition (doomed ·.key)
  let (detached, slots) := c.slots.partition (doomed ·.1)
  ({ c with
      entries := kept
      weight := dropped.foldl (fun weight e => weight - e.weight) c.weight
      slots := slots
      flights := detached.foldl (fun flights slot => flights.modify slot.2 Flight.markStale) c.flights
      invalidations := c.invalidations + dropped.length },
    dropped.map Entry.value)

def clear (c : Cache κ ε α) : Cache κ ε α × List α := c.invalidate fun _ => true

end Cache

end ConfigCompiler
